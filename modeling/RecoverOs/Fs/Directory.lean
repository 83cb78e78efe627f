import RecoverOs.Fs.FileHandles
import RecoverOs.Fs.Growth
import RecoverOs.Logic.Catalog

namespace RecoverOs.Fs

open Bytes Transition

variable {base : Nat} {created : Nat → Prop} {s after : State} {p : Ptr} {dNo : Nat}

/-- The name that fits in an entry: at most 15 characters before the final zero. -/
structure FileName (name : List UInt8) : Prop where
  short : name.length < maxFileNameLen
  nonzero : 0 ∉ name

/-- A name that ends inside its entry: at most 23 characters before the final zero. -/
structure EntryName (name : List UInt8) : Prop where
  short : name.length < nameBytes
  nonzero : 0 ∉ name

theorem natCast_ne_isntExist (i : Nat) : ¬ ((i : Int) = -direntIsntExist) := by
  simp only [direntIsntExist]
  omega

theorem node_ne_ulongMax {i : Nat} (bound : i < inodeCntMax) : i ≠ ulongMax := by
  simp only [inodeCntMax] at bound
  simp only [ulongMax]
  omega

theorem FileName.entryName {name : List UInt8} (good : FileName name) : EntryName name where
  short := Nat.lt_trans good.short (by decide)
  nonzero := good.nonzero

def Spells (buf : Buffer) (name : List UInt8) : Prop := ∀ i ≤ name.length, buf i = cstr name i

structure Entry where
  name : List UInt8
  iNo : Nat
  fType : FileType
  deriving DecidableEq, Repr

structure Dirent.Is (de : Dirent) (entry : Entry) : Prop where
  iNo : de.iNo = entry.iNo
  name : Spells de.filename entry.name
  fType : de.fType = entry.fType

theorem spells_cstr (name : List UInt8) : Spells (cstr name) name := fun _ _ => rfl

theorem Spells.tail {buf : Buffer} {c : UInt8} {name : List UInt8} (spells : Spells buf (c :: name)) :
    buf 0 = c ∧ Spells (fun i => buf (i + 1)) name := by
  refine ⟨by simpa [cstr] using spells 0 (Nat.zero_le _), ?_⟩
  intro i bound
  have next := spells (i + 1) (by simpa using bound)
  simpa [cstr] using next

theorem Spells.nil {buf : Buffer} (spells : Spells buf []) : buf 0 = 0 := by
  simpa [cstr] using spells 0 (Nat.le_refl 0)

theorem strEq_iff {left : Nat} {a b : Buffer} {name other : List UInt8} (first : Spells a name) (second : Spells b other)
    (nonzero : 0 ∉ name) (nonzero' : 0 ∉ other) (room : name.length < left) :
    strEq left a b = true ↔ name = other := by
  induction name generalizing left a b other with
  | nil =>
    cases left with
    | zero => omega
    | succ left =>
      have zero := first.nil
      cases other with
      | nil => simp [strEq, zero, second.nil]
      | cons c other =>
        have char := second.tail.1
        have positive : c ≠ 0 := fun same => nonzero' (same ▸ List.mem_cons_self ..)
        simp [strEq, zero, char, Ne.symm positive]
  | cons c name ih =>
    cases left with
    | zero => omega
    | succ left =>
      obtain ⟨char, rest⟩ := first.tail
      have positive : c ≠ 0 := fun same => nonzero (same ▸ List.mem_cons_self ..)
      cases other with
      | nil => simp [strEq, char, second.nil, positive]
      | cons d other =>
        obtain ⟨char', rest'⟩ := second.tail
        have later := @ih left _ _ other rest rest' (fun inside => nonzero (List.mem_cons_of_mem _ inside))
          (fun inside => nonzero' (List.mem_cons_of_mem _ inside)) (by simpa using room)
        simp only [strEq, char, char', Bool.and_eq_true, Bool.or_eq_true, beq_iff_eq, positive, false_or, later,
          List.cons.injEq]

theorem load_is {left right : Buffer} {entry : Entry} (is : (Dirent.load left).Is entry)
    (short : entry.name.length < nameBytes) (same : ∀ i < direntSize, right i = left i) :
    (Dirent.load right).Is entry where
  iNo := by
    rw [← is.iNo]
    apply wordAt_congr
    intro i bound
    exact same _ (by simp only [direntSize]; omega)
  name := by
    intro i bound
    rw [← is.name i bound]
    exact same _ (by simp only [direntSize, nameBytes] at short ⊢; omega)
  fType := by
    rw [← is.fType]
    show FileType.ofCode (wordAt 4 right (8 + maxFileNameLen)) = FileType.ofCode (wordAt 4 left (8 + maxFileNameLen))
    congr 1
    apply wordAt_congr
    intro i bound
    exact same _ (by simp only [direntSize, maxFileNameLen]; omega)

theorem ofCode_code {type : FileType} (known : ∀ code, type ≠ .other code) : FileType.ofCode type.code = type := by
  cases type with
  | other code => exact absurd rfl (known code)
  | _ => rfl

theorem code_small {type : FileType} (known : ∀ code, type ≠ .other code) : type.code < 256 ^ 4 := by
  cases type with
  | other code => exact absurd rfl (known code)
  | _ => simp [FileType.code]

theorem store_is {de : Dirent} {entry : Entry} (is : de.Is entry) (short : entry.name.length < maxFileNameLen)
    (number : entry.iNo < 2 ^ 64) (known : ∀ code, entry.fType ≠ .other code) : (Dirent.load de.store).Is entry where
  iNo := by
    apply wordAt_byteOf
    · intro i bound
      rw [Dirent.store, if_pos (by omega), Nat.zero_add, is.iNo]
    · exact number
  name := by
    intro i bound
    rw [← is.name i bound]
    show de.store (8 + i) = de.filename i
    rw [Dirent.store, if_neg (by omega), if_pos (by omega), Nat.add_sub_cancel_left]
  fType := by
    show FileType.ofCode (wordAt 4 de.store (8 + maxFileNameLen)) = entry.fType
    have code : wordAt 4 de.store (8 + maxFileNameLen) = de.fType.code := by
      apply wordAt_byteOf
      · intro i bound
        have place : 8 + maxFileNameLen = 24 := rfl
        rw [Dirent.store, place, if_neg (by omega), if_neg (by omega), if_pos (by omega), Nat.add_sub_cancel_left]
      · rw [is.fType]
        exact code_small known
    rw [code, is.fType]
    exact ofCode_code known

theorem code_ofCode (n : Nat) : (FileType.ofCode n).code = n := by
  match n with
  | 0 | 1 | 2 | 3 => rfl
  | n + 4 => rfl

theorem store_load {buf : Buffer} {k : Nat} : (Dirent.load buf).store k = buf k := by
  rw [Dirent.store]
  split
  · have same := @byteOf_wordAt 8 buf 0 k (by assumption)
    rw [Nat.zero_add] at same
    exact same
  split
  · simp only [Dirent.load]
    congr 1
    omega
  split
  · simp only [Dirent.load, code_ofCode]
    rw [byteOf_wordAt (by omega)]
    congr 1
    simp only [maxFileNameLen] at *
    omega
  · simp only [Dirent.load]
    congr 1
    omega

theorem store_type {de : Dirent} {i : Nat} (bound : i < 4) : de.store (24 + i) = byteOf de.fType.code i := by
  rw [Dirent.store, if_neg (by omega), if_neg (by simp only [maxFileNameLen]; omega), if_pos (by omega),
    Nat.add_sub_cancel_left]

theorem load_zeros {bytes : Buffer} (zeros : ∀ i < 4, bytes (24 + i) = 0) : (Dirent.load bytes).fType = .dir := by
  show FileType.ofCode (wordAt 4 bytes 24) = .dir
  rw [wordAt_zero zeros]
  rfl

theorem EntryName.cut {name : List UInt8} (good : EntryName name) : EntryName (name.take maxFileNameLen) where
  short := Nat.lt_of_le_of_lt (List.length_take_le _ _) (by decide)
  nonzero := fun inside => good.nonzero (List.mem_of_mem_take inside)

theorem setType_is {de : Dirent} {name : List UInt8} {i : Nat} {type : FileType} (is : de.Is ⟨name, i, type⟩) (number : i < 2 ^ 64) :
    (de.setType .dir).Is ⟨name.take maxFileNameLen, i, .dir⟩ where
  iNo := by
    apply wordAt_byteOf
    · intro k bound
      rw [Nat.zero_add, Dirent.store, if_pos bound, is.iNo]
    · exact number
  name := by
    intro k bound
    have within : (name.take maxFileNameLen).length ≤ maxFileNameLen := List.length_take_le _ _
    have shorter := List.length_take_le' maxFileNameLen name
    dsimp only at bound ⊢
    simp only [Dirent.setType, Dirent.load, Dirent.store]
    rw [if_neg (by omega)]
    by_cases field : k < maxFileNameLen
    · rw [if_pos (by omega), Nat.add_sub_cancel_left, is.name k (Nat.le_trans bound shorter), cstr, cstr,
        List.getD_eq_getElem?_getD, List.getD_eq_getElem?_getD, List.getElem?_take_of_lt field]
    · obtain rfl : k = maxFileNameLen := by omega
      rw [if_neg (by decide), if_pos (by decide), cstr, List.getD_eq_getElem?_getD, List.getElem?_eq_none within,
        Option.getD_none]
      rfl
  fType := by
    apply load_zeros
    intro k bound
    rw [store_type bound]
    show byteOf 0 k = 0
    rw [byteOf, Nat.zero_div]
    rfl

/-- The file `dNo` holds these entries. A name may run over its field, but it ends inside its entry. -/
structure Rows (s : State) (dNo : Nat) (entries : List Entry) : Prop where
  size : fileSize s dNo = entries.length * direntSize
  entry : ∀ k entry, entries[k]? = some entry →
    (Dirent.load fun i => content s dNo (k * direntSize + i)).Is entry
  name : ∀ entry ∈ entries, EntryName entry.name

structure Lists (s : State) (dNo : Nat) (entries : List Entry) : Prop where
  size : fileSize s dNo = entries.length * direntSize
  entry : ∀ k entry, entries[k]? = some entry →
    (Dirent.load fun i => content s dNo (k * direntSize + i)).Is entry
  name : ∀ entry ∈ entries, FileName entry.name

theorem Lists.rows {entries : List Entry} (lists : Lists s dNo entries) : Rows s dNo entries :=
  ⟨lists.size, lists.entry, fun entry inside => (lists.name entry inside).entryName⟩

theorem Rows.lists {entries : List Entry} (rows : Rows s dNo entries) (name : ∀ entry ∈ entries, FileName entry.name) :
    Lists s dNo entries :=
  ⟨rows.size, rows.entry, name⟩

theorem lists_nil (size : fileSize s dNo = 0) : Lists s dNo [] := by
  refine ⟨?_, ?_, ?_⟩
  · rw [size, List.length_nil, Nat.zero_mul]
  · intro k entry found
    cases found
  · intro entry inside
    cases inside

theorem Rows.agree {keep : Nat → Prop} {entries : List Entry} (rows : Rows s dNo entries) (agree : Agree keep s after)
    (kept : keep dNo) : Rows after dNo entries where
  size := (agree.size dNo kept).trans rows.size
  entry := by
    intro k entry found
    have inside := (List.getElem?_eq_some_iff.mp found).1
    refine load_is (rows.entry k entry found) (rows.name entry (List.mem_of_getElem? found)).short ?_
    intro i bound
    apply agree.byte dNo kept
    rw [rows.size]
    have fits : (k + 1) * direntSize ≤ entries.length * direntSize := Nat.mul_le_mul_right _ inside
    rw [Nat.succ_mul] at fits
    omega
  name := rows.name

theorem Lists.agree {keep : Nat → Prop} {entries : List Entry} (lists : Lists s dNo entries) (agree : Agree keep s after)
    (kept : keep dNo) : Lists after dNo entries :=
  (lists.rows.agree agree kept).lists lists.name

theorem Rows.append {entries : List Entry} {entry : Entry} (rows : Rows s dNo entries)
    (size : fileSize after dNo = fileSize s dNo + direntSize)
    (kept : ∀ k < fileSize s dNo, content after dNo k = content s dNo k)
    (is : (Dirent.load fun i => content after dNo (fileSize s dNo + i)).Is entry) (name : EntryName entry.name) :
    Rows after dNo (entries ++ [entry]) where
  size := by rw [size, rows.size, List.length_append, List.length_singleton, Nat.succ_mul]
  entry := by
    intro k other found
    by_cases old : k < entries.length
    · rw [List.getElem?_append_left old] at found
      have fits : (k + 1) * direntSize ≤ entries.length * direntSize := Nat.mul_le_mul_right _ old
      rw [Nat.succ_mul] at fits
      refine load_is (rows.entry k other found) (rows.name other (List.mem_of_getElem? found)).short ?_
      intro i bound
      exact kept _ (by rw [rows.size]; omega)
    · have last : k = entries.length := by
        have inside := (List.getElem?_eq_some_iff.mp found).1
        rw [List.length_append, List.length_singleton] at inside
        omega
      subst last
      rw [List.getElem?_concat_length] at found
      cases found
      rw [← rows.size]
      exact is
  name := by
    intro other inside
    rcases List.mem_append.mp inside with old | new
    · exact rows.name other old
    · rw [List.mem_singleton.mp new]
      exact name

theorem Rows.read {entries : List Entry} {k : Nat} {entry : Entry} (rows : Rows s dNo entries) (cache : CacheInv s)
    (isOpen : IsOpen s p dNo) (small : fileSize s dNo ≤ ndirect * blockSize) (found : entries[k]? = some entry) :
    ∃ buf, inodeRead s p direntSize (k * direntSize) = .ok (direntSize, buf) ∧ (Dirent.load buf).Is entry ∧
      ∀ i < direntSize, buf i = content s dNo (k * direntSize + i) := by
  have inside := (List.getElem?_eq_some_iff.mp found).1
  have fits : (k + 1) * direntSize ≤ fileSize s dNo := by
    rw [rows.size]
    exact Nat.mul_le_mul_right _ inside
  rw [Nat.succ_mul] at fits
  have whole : min direntSize (fileSize s dNo - k * direntSize) = direntSize := by omega
  obtain ⟨buf, ran, bytes⟩ := @inodeRead_spec s p dNo direntSize (k * direntSize) cache isOpen (by
    simp only [ndirect, blockSize] at small
    omega) (.inl (by decide))
  rw [whole] at ran bytes
  exact ⟨buf, ran, load_is (rows.entry k entry found) (rows.name entry (List.mem_of_getElem? found)).short bytes, bytes⟩

section

variable {entries : List Entry} {buf : Buffer} {name : List UInt8}

theorem direntSearchFrom_spec {idx left : Nat} (rows : Rows s dNo entries) (cache : CacheInv s)
    (isOpen : IsOpen s p dNo) (small : fileSize s dNo ≤ ndirect * blockSize) (spells : Spells buf name)
    (nonzero : 0 ∉ name) (rest : idx + left = entries.length) :
    (∃ (k : Nat) (entry : Entry), entries[k]? = some entry ∧ entry.name = name ∧
        direntSearchFrom s p buf idx left = .ok (k : Int)) ∨
      ((∀ k entry, idx ≤ k → entries[k]? = some entry → entry.name ≠ name) ∧
        direntSearchFrom s p buf idx left = .ok (-direntIsntExist)) := by
  induction left generalizing idx with
  | zero =>
    right
    refine ⟨?_, rfl⟩
    intro k entry low found
    have inside := (List.getElem?_eq_some_iff.mp found).1
    omega
  | succ left ih =>
    obtain ⟨entry, found⟩ : ∃ entry, entries[idx]? = some entry :=
      ⟨_, List.getElem?_eq_getElem (by omega)⟩
    obtain ⟨bytes, read, is, _⟩ := rows.read cache isOpen small found
    have good := rows.name entry (List.mem_of_getElem? found)
    have compare := @strEq_iff nameBytes _ _ _ _ is.name spells good.nonzero nonzero good.short
    have step : direntSearchFrom s p buf idx (left + 1) =
        if strEq nameBytes (Dirent.load bytes).filename buf then .ok (idx : Int)
        else direntSearchFrom s p buf (idx + 1) left := by
      simp only [direntSearchFrom, read, Bind.bind, Except.bind, assert, beq_self_eq_true, if_true]
      rfl
    rw [step]
    by_cases same : entry.name = name
    · rw [if_pos (compare.mpr same)]
      exact .inl ⟨idx, entry, found, same, rfl⟩
    · rw [if_neg fun equal => same (compare.mp equal)]
      rcases @ih (idx + 1) (by omega) with ⟨k, other, found', named, ran⟩ | ⟨absent, ran⟩
      · exact .inl ⟨k, other, found', named, ran⟩
      · refine .inr ⟨?_, ran⟩
        intro k other low found'
        rcases Nat.lt_or_eq_of_le low with later | here
        · exact absent k other later found'
        · rw [← here, found] at found'
          cases found'
          exact same

theorem direntSearch_placed (rows : Rows s dNo entries) (placed : Placed base created s) (isOpen : IsOpen s p dNo)
    (spells : Spells buf name) (nonzero : 0 ∉ name) :
    (∃ (k : Nat) (entry : Entry), entries[k]? = some entry ∧ entry.name = name ∧ direntSearch s p buf = .ok (k : Int)) ∨
      ((∀ entry ∈ entries, entry.name ≠ name) ∧ direntSearch s p buf = .ok (-direntIsntExist)) := by
  have member : created dNo := isOpen.iNo ▸ placed.members p isOpen.mem
  have small : fileSize s dNo ≤ ndirect * blockSize := placed.size dNo member
  have count : (s.inode p).diskInode.fileSize / direntSize = entries.length := by
    rw [← current_open isOpen placed.cache]
    show fileSize s dNo / direntSize = _
    rw [rows.size]
    exact Nat.mul_div_cancel _ (by decide)
  unfold direntSearch
  rw [count]
  rcases direntSearchFrom_spec rows placed.cache isOpen small spells nonzero (Nat.zero_add _) with found | ⟨absent, ran⟩
  · exact .inl found
  · refine .inr ⟨?_, ran⟩
    intro entry inside
    obtain ⟨k, found⟩ := List.mem_iff_getElem?.mp inside
    exact absent k entry (Nat.zero_le k) found

theorem direntSearch_spec (rows : Rows s dNo entries) (inv : OwnInv base created s) (isOpen : IsOpen s p dNo)
    (spells : Spells buf name) (nonzero : 0 ∉ name) :
    (∃ (k : Nat) (entry : Entry), entries[k]? = some entry ∧ entry.name = name ∧ direntSearch s p buf = .ok (k : Int)) ∨
      ((∀ entry ∈ entries, entry.name ≠ name) ∧ direntSearch s p buf = .ok (-direntIsntExist)) :=
  direntSearch_placed rows inv.placed isOpen spells nonzero

structure Updated (base : Nat) (created : Nat → Prop) (s after : State) (dNo : Nat) : Prop where
  own : OwnInv base created after
  synced : Synced s → Synced after
  steady : Steady s after
  marks : ∀ jNo < inodeCntMax, inodeMark after jNo = inodeMark s jNo
  others : Agree (fun jNo => created jNo ∧ jNo ≠ dNo) s after

theorem Updated.inv (updated : Updated base created s after dNo) (inv : FileInv base created s) :
    FileInv base created after :=
  ⟨updated.own, updated.synced inv.synced⟩

theorem Updated.trans {middle : State} (first : Updated base created s middle dNo)
    (second : Updated base created middle after dNo) : Updated base created s after dNo where
  own := second.own
  synced := fun synced => second.synced (first.synced synced)
  steady := first.steady.trans second.steady
  marks := fun jNo bound => (second.marks jNo bound).trans (first.marks jNo bound)
  others := first.others.trans second.others

theorem direntAdd_present {de : Dirent} {entry : Entry} (rows : Rows s dNo entries) (inv : OwnInv base created s)
    (isOpen : IsOpen s p dNo) (is : de.Is entry) (good : EntryName entry.name)
    (present : ∃ other ∈ entries, other.name = entry.name) :
    direntAdd s p de = .ok (-direntAlreadyExist, s) := by
  rcases direntSearch_spec rows inv isOpen is.name good.nonzero with ⟨k, _, _, _, ran⟩ | ⟨absent, _⟩
  · simp only [direntAdd, ran, Bind.bind, Except.bind]
    rw [if_neg (natCast_ne_isntExist _)]
    rfl
  · obtain ⟨other, inside, same⟩ := present
    exact absurd same (absent other inside)

theorem names_append {entry : Entry} (names : ∀ other ∈ entries, FileName other.name) (good : FileName entry.name) :
    ∀ other ∈ entries ++ [entry], FileName other.name := by
  intro other inside
  rcases List.mem_append.mp inside with old | new
  · exact names other old
  · rw [List.mem_singleton.mp new]
    exact good

theorem direntAdd_spec {de : Dirent} {entry : Entry} (lists : Lists s dNo entries) (inv : OwnInv base created s)
    (isOpen : IsOpen s p dNo) (is : de.Is entry) (good : FileName entry.name) (number : entry.iNo < 2 ^ 64)
    (known : ∀ code, entry.fType ≠ .other code) (absent : ∀ other ∈ entries, other.name ≠ entry.name)
    (room : (entries.length + 1) * direntSize ≤ ndirect * blockSize) :
    ∃ result after, direntAdd s p de = .ok (result, after) ∧ Updated base created s after dNo ∧
      (result < 0 → after.ranOut = true ∧ Lists after dNo entries) ∧
      (¬ result < 0 → result = direntSize ∧ Lists after dNo (entries ++ [entry])) := by
  have own := current_open isOpen inv.cache
  have size : (s.inode p).diskInode.fileSize = entries.length * direntSize := by
    rw [← own]
    exact lists.size
  rw [Nat.succ_mul] at room
  obtain ⟨result, after, write, written⟩ :=
    @inodeWrite_spec base created s p dNo de.store direntSize (entries.length * direntSize) inv isOpen room
      (.inl (by decide))
  refine ⟨result, after, ?_, ⟨written.own, written.synced, written.steady, written.marks, written.others⟩, ?_, ?_⟩
  · rcases direntSearch_spec lists.rows inv isOpen is.name good.nonzero with ⟨k, other, found, same, _⟩ | ⟨_, ran⟩
    · exact absurd same (absent other (List.mem_of_getElem? found))
    · simp only [direntAdd, ran, Bind.bind, Except.bind, if_true, size]
      exact write
  · intro failed
    obtain ⟨out, unchanged⟩ := written.failed failed
    exact ⟨out, lists.agree unchanged rfl⟩
  · intro fine
    obtain ⟨exact, sizeAfter, bytes⟩ := written.done fine
    have size : fileSize after dNo = fileSize s dNo + direntSize := by
      rw [sizeAfter, lists.size]
      omega
    have longer : Rows after dNo (entries ++ [entry]) := by
      apply lists.rows.append size
      · intro k bound
        rw [bytes k (by omega) (.inr bound), if_neg (by rw [← lists.size]; omega)]
      · refine load_is (store_is is good.short number known) good.entryName.short ?_
        intro i bound
        rw [lists.size] at size ⊢
        rw [bytes _ (by omega) (.inl (by omega)), if_pos (by omega), Nat.add_sub_cancel_left]
      · exact good.entryName
    exact ⟨exact, longer.lists (names_append lists.name good)⟩

theorem direntAdd_new {de : Dirent} (search : direntSearch s p de.filename = .ok (-direntIsntExist)) :
    direntAdd s p de = inodeWrite s p de.store direntSize (s.inode p).diskInode.fileSize := by
  simp only [direntAdd, search, Bind.bind, Except.bind, if_true]

/-- The directory can take one more entry: it is not full, and the block it may need is free. -/
def Accepts (s : State) (dNo : Nat) : Prop :=
  fileSize s dNo + direntSize ≤ ndirect * blockSize ∧
    blockCount (fileSize s dNo + direntSize) - blockCount (fileSize s dNo) ≤ freeBlocks s

instance (s : State) (dNo : Nat) : Decidable (Accepts s dNo) := inferInstanceAs (Decidable (_ ∧ _))

theorem accepts_iff : Accepts s dNo ↔ fileSize s dNo + direntSize ≤ ndirect * blockSize ∧
    blockCount (fileSize s dNo + direntSize) ≤ spare s dNo := by
  rw [Accepts, spare, Nat.sub_le_iff_le_add]

theorem Rows.absent {name : List UInt8} (rows : Rows s dNo entries) (inv : OwnInv base created s)
    (isOpen : IsOpen s p dNo) (spells : Spells buf name) (nonzero : 0 ∉ name)
    (absent : ∀ entry ∈ entries, entry.name ≠ name) : direntSearch s p buf = .ok (-direntIsntExist) := by
  rcases direntSearch_spec rows inv isOpen spells nonzero with ⟨k, other, found, same, _⟩ | ⟨_, ran⟩
  · exact absurd same (absent other (List.mem_of_getElem? found))
  · exact ran

section

variable {de : Dirent} (inv : OwnInv base created s) (isOpen : IsOpen s p dNo)
  (search : direntSearch s p de.filename = .ok (-direntIsntExist))
include inv isOpen search

theorem direntAdd_refused (full : ¬ Accepts s dNo) : ∃ result after, direntAdd s p de = .ok (result, after) ∧ result < 0 ∧
    (after = s ∨ after = { s with ranOut := true }) := by
  have size : (s.inode p).diskInode.fileSize = fileSize s dNo := by
    rw [fileSize, current_open isOpen inv.cache]
  have member : created dNo := isOpen.iNo ▸ inv.members p isOpen.mem
  have small : fileSize s dNo ≤ ndirect * blockSize := inv.size dNo member
  have last : (fileSize s dNo + direntSize) % 2 ^ 64 = fileSize s dNo + direntSize := by
    apply Nat.mod_eq_of_lt
    simp only [ndirect, blockSize, direntSize] at small ⊢
    omega
  have ran : ∀ result after, inodeSizeChange s p (fileSize s dNo + direntSize) = .ok (result, after) → result < 0 →
      direntAdd s p de = .ok (result, after) := by
    intro result after change failed
    rw [direntAdd_new search, size]
    simp only [inodeWrite, last, size, change, Bind.bind, Except.bind, if_pos failed]
    rw [if_pos (by simp only [direntSize]; omega)]
    rfl
  by_cases large : ndirect * blockSize < fileSize s dNo + direntSize
  · refine ⟨-fileSizeTooBig, s, ran _ _ ?_ (by decide), by decide, .inl rfl⟩
    rw [inodeSizeChange, if_pos large]
  · have few : freeBlocks s < blockCount (fileSize s dNo + direntSize) - blockCount (fileSize s dNo) :=
      Nat.not_le.mp fun enough => full ⟨Nat.not_lt.mp large, enough⟩
    have none : freeBlocks s = 0 := by
      simp only [blockCount, divRoundUp, blockSize, direntSize] at few
      omega
    obtain ⟨after, change, same⟩ := @inodeSizeChange_short s p _ large (by rw [neededBlocks, size]; exact few)
    exact ⟨-1, after, ran _ _ change (by decide), by decide, .inr (same none)⟩

theorem direntAdd_written (accepts : Accepts s dNo) :
    ∃ after, direntAdd s p de = .ok ((direntSize : Int), after) ∧ Updated base created s after dNo ∧
      fileSize after dNo = fileSize s dNo + direntSize ∧
      (∀ i < direntSize, content after dNo (fileSize s dNo + i) = de.store i) ∧
      (∀ k < fileSize s dNo, content after dNo k = content s dNo k) ∧ spare after dNo = spare s dNo := by
  have size : (s.inode p).diskInode.fileSize = fileSize s dNo := by
    rw [fileSize, current_open isOpen inv.cache]
  obtain ⟨result, after, write, written⟩ :=
    @inodeWrite_spec base created s p dNo de.store direntSize (fileSize s dNo) inv isOpen accepts.1 (.inl (by decide))
  have fine : ¬ result < 0 := inodeWrite_enough accepts.1 (by rw [neededBlocks, size]; exact accepts.2) write
  have same := inv.write_spare isOpen write fine
  obtain ⟨rfl, sizeAfter, bytes⟩ := written.done fine
  rw [Nat.max_eq_right (Nat.le_add_right _ _)] at sizeAfter
  refine ⟨after, ?_, ⟨written.own, written.synced, written.steady, written.marks, written.others⟩, sizeAfter, ?_, ?_, same⟩
  · rw [direntAdd_new search, size]
    exact write
  · intro i bound
    rw [bytes _ (by omega) (.inl (by omega)), if_pos (by omega), Nat.add_sub_cancel_left]
  · intro k bound
    rw [bytes k (by omega) (.inr bound), if_neg (by omega)]

theorem direntAdd_rows {entry : Entry} (rows : Rows s dNo entries) (accepts : Accepts s dNo)
    (is : (Dirent.load de.store).Is entry) (good : EntryName entry.name) :
    ∃ after, direntAdd s p de = .ok ((direntSize : Int), after) ∧ Updated base created s after dNo ∧
      Rows after dNo (entries ++ [entry]) ∧ spare after dNo = spare s dNo := by
  obtain ⟨after, ran, updated, size, bytes, kept, same⟩ := direntAdd_written inv isOpen search accepts
  exact ⟨after, ran, updated, rows.append size kept (load_is is good.short bytes) good, same⟩

end

/-- A new name is appended exactly when the directory accepts it, and a refusal leaves everything as it was. -/
theorem direntAdd_outcome {de : Dirent} {entry : Entry} (lists : Lists s dNo entries) (inv : OwnInv base created s)
    (isOpen : IsOpen s p dNo) (is : de.Is entry) (good : FileName entry.name) (number : entry.iNo < 2 ^ 64)
    (known : ∀ code, entry.fType ≠ .other code) (absent : ∀ other ∈ entries, other.name ≠ entry.name) :
    (Accepts s dNo ∧ ∃ after, direntAdd s p de = .ok ((direntSize : Int), after) ∧ Updated base created s after dNo ∧
      Lists after dNo (entries ++ [entry])) ∨
    (¬ Accepts s dNo ∧ ∃ result after, direntAdd s p de = .ok (result, after) ∧ result < 0 ∧
      (after = s ∨ after = { s with ranOut := true })) := by
  have search := lists.rows.absent inv isOpen is.name good.nonzero absent
  by_cases accepts : Accepts s dNo
  · obtain ⟨after, ran, updated, longer, _⟩ := direntAdd_rows inv isOpen search lists.rows accepts
      (store_is is good.short number known) good.entryName
    exact .inl ⟨accepts, after, ran, updated, longer.lists (names_append lists.name good)⟩
  · exact .inr ⟨accepts, direntAdd_refused inv isOpen search accepts⟩

theorem direntDelete_absent (rows : Rows s dNo entries) (inv : OwnInv base created s) (isOpen : IsOpen s p dNo)
    (spells : Spells buf name) (nonzero : 0 ∉ name) (absent : ∀ entry ∈ entries, entry.name ≠ name) :
    direntDelete s p buf = .ok (-direntIsntExist, s) := by
  rcases direntSearch_spec rows inv isOpen spells nonzero with ⟨k, entry, found, same, _⟩ | ⟨_, ran⟩
  · exact absurd same (absent entry (List.mem_of_getElem? found))
  · simp only [direntDelete, ran, Bind.bind, Except.bind, if_true]
    rfl

theorem Rows.removed {k : Nat} {entry : Entry} {endDe : Buffer} (rows : Rows s dNo entries) (inside : k < entries.length)
    (lastFound : entries[entries.length - 1]? = some entry) (lastIs : (Dirent.load endDe).Is entry)
    (size : fileSize after dNo = entries.length * direntSize - direntSize)
    (kept : ∀ b < entries.length * direntSize - direntSize, content after dNo b =
      if k * direntSize ≤ b ∧ b < k * direntSize + direntSize then endDe (b - k * direntSize) else content s dNo b) :
    Rows after dNo (Catalog.removeAt entries k) := by
  have place : (entries.length - 1) * direntSize = entries.length * direntSize - direntSize := by
    rw [Nat.sub_mul, Nat.one_mul]
  constructor
  case size => rw [size, Catalog.length_removeAt, place]
  case entry =>
    intro j other at'
    have low := (List.getElem?_eq_some_iff.mp at').1
    rw [Catalog.length_removeAt] at low
    have lowFits : (j + 1) * direntSize ≤ (entries.length - 1) * direntSize := Nat.mul_le_mul_right _ low
    rw [Nat.succ_mul, place] at lowFits
    rw [Catalog.getElem?_removeAt (by omega)] at at'
    by_cases here : j = k
    · rw [if_pos here, List.getLast?_eq_getElem?, lastFound] at at'
      cases at'
      refine load_is lastIs (rows.name _ (List.mem_of_getElem? lastFound)).short ?_
      intro i bound
      rw [kept _ (by omega), here, if_pos (by omega), Nat.add_sub_cancel_left]
    · rw [if_neg here] at at'
      refine load_is (rows.entry j other at') (rows.name other (List.mem_of_getElem? at')).short ?_
      intro i bound
      have apart : j * direntSize + direntSize ≤ k * direntSize ∨ k * direntSize + direntSize ≤ j * direntSize := by
        rcases Nat.lt_or_gt_of_ne here with before | later
        · left
          rw [← Nat.succ_mul]
          exact Nat.mul_le_mul_right _ before
        · right
          rw [← Nat.succ_mul]
          exact Nat.mul_le_mul_right _ later
      rw [kept _ (by omega), if_neg (by omega)]
  case name =>
    intro other gone
    have original := (Catalog.removeAt_perm inside).mem_iff.mp gone
    exact rows.name other (List.mem_of_mem_eraseIdx original)

theorem Lists.removed {k : Nat} {entry : Entry} (lists : Lists s dNo entries) (found : entries[k]? = some entry)
    (rows : Rows after dNo (Catalog.removeAt entries k)) : Lists after dNo (Catalog.removeAt entries k) := by
  apply rows.lists
  intro other left
  exact lists.name other ((Catalog.cons_removeAt found).mem_iff.mpr (List.mem_cons_of_mem _ left))

theorem direntDelete_placed {result : Int} (rows : Rows s dNo entries) (placed : Placed base created s)
    (isOpen : IsOpen s p dNo) (spells : Spells buf name) (nonzero : 0 ∉ name) (present : ∃ entry ∈ entries, entry.name = name)
    (call : direntDelete s p buf = .ok (result, after)) :
    ∃ k entry, entries[k]? = some entry ∧ entry.name = name ∧ Rows after dNo (Catalog.removeAt entries k) ∧
      SameCache s after ∧ Agree (fun jNo => created jNo ∧ jNo ≠ dNo) s after ∧
      (∀ jNo < inodeCntMax, inodeMark after jNo = inodeMark s jNo) ∧ Settled after dNo := by
  have member : created dNo := isOpen.iNo ▸ placed.members p isOpen.mem
  have small : fileSize s dNo ≤ ndirect * blockSize := placed.size dNo member
  have own := current_open isOpen placed.cache
  have size : (s.inode p).diskInode.fileSize = entries.length * direntSize := by
    rw [← own]
    exact rows.size
  rcases direntSearch_placed rows placed isOpen spells nonzero with ⟨k, entry, found, same, ran⟩ | ⟨absent, _⟩
  swap
  · obtain ⟨entry, inside, same⟩ := present
    exact absurd same (absent entry inside)
  have inside := (List.getElem?_eq_some_iff.mp found).1
  obtain ⟨last, lastFound⟩ : ∃ last, entries[entries.length - 1]? = some last :=
    ⟨_, List.getElem?_eq_getElem (by omega)⟩
  obtain ⟨endDe, read, lastIs, _⟩ := rows.read placed.cache isOpen small lastFound
  have place : (entries.length - 1) * direntSize = entries.length * direntSize - direntSize := by
    rw [Nat.sub_mul, Nat.one_mul]
  have fits : (k + 1) * direntSize ≤ entries.length * direntSize := Nat.mul_le_mul_right _ inside
  rw [Nat.succ_mul] at fits
  rw [rows.size] at small
  have there := natCast_ne_isntExist k
  simp only [direntDelete, bind_ok] at call
  obtain ⟨idx, search, rest⟩ := call
  rw [ran] at search
  cases search
  rw [if_neg there] at rest
  simp only [bind_ok, Prod.exists, pure_ok, Prod.mk.injEq] at rest
  obtain ⟨_, buffer, read', _, moved, write, _, shrunk, change, _, rfl⟩ := rest
  rw [size, ← place, read] at read'
  cases read'
  rw [Int.toNat_natCast] at write
  rw [size] at change
  obtain ⟨_, rfl⟩ := inodeWrite_inside write (by rw [size]; omega)
  obtain ⟨_, currents, marks, others, bytes⟩ :=
    @writeData_placed base created s p dNo endDe direntSize (k * direntSize) placed isOpen (by rw [rows.size]; omega)
  have wrote := writeData_same s p endDe direntSize (k * direntSize)
  have movedPlaced := placed.same wrote currents
  have movedSize : fileSize (writeData s p endDe direntSize (k * direntSize)) dNo = entries.length * direntSize := by
    rw [fileSize, currents dNo member]
    exact rows.size
  obtain ⟨recut, sizeAfter, settled⟩ := inodeSizeChange_less movedPlaced.layout movedPlaced.cache (isOpen.same wrote)
    (by omega) (by rw [movedSize]; omega) (fun c counted => movedPlaced.word member (by
      have whole : (current (writeData s p endDe direntSize (k * direntSize)) dNo).fileSize = entries.length * direntSize :=
        movedSize
      rw [ownedCnt, whole]
      simp only [blockCount, divRoundUp, blockSize] at counted ⊢
      omega)) change
  refine ⟨k, entry, found, same, rows.removed inside lastFound lastIs sizeAfter ?_, wrote.trans recut.toSameCache,
    others.trans (recut.others movedPlaced (isOpen.same wrote)), ?_, settled⟩
  · intro b bound
    rw [recut.bytes movedPlaced (isOpen.same wrote) b (by omega)]
    exact bytes b (by rw [rows.size]; omega)
  · intro jNo bound
    rw [recut.marks jNo bound, marks jNo bound]

/-- `dirent_delete` of an existing name moves the last entry into its place. No block is allocated. -/
theorem direntDelete_spec (rows : Rows s dNo entries) (inv : OwnInv base created s) (isOpen : IsOpen s p dNo)
    (spells : Spells buf name) (nonzero : 0 ∉ name) (present : ∃ entry ∈ entries, entry.name = name) :
    ∃ k entry after, entries[k]? = some entry ∧ entry.name = name ∧ direntDelete s p buf = .ok (0, after) ∧
      Updated base created s after dNo ∧ Rows after dNo (Catalog.removeAt entries k) ∧ spare after dNo = spare s dNo := by
  have member : created dNo := isOpen.iNo ▸ inv.members p isOpen.mem
  have small : fileSize s dNo ≤ ndirect * blockSize := inv.size dNo member
  have own := current_open isOpen inv.cache
  have size : (s.inode p).diskInode.fileSize = entries.length * direntSize := by
    rw [← own]
    exact rows.size
  rcases direntSearch_spec rows inv isOpen spells nonzero with ⟨k, entry, found, same, ran⟩ | ⟨absent, _⟩
  swap
  · obtain ⟨entry, inside, same⟩ := present
    exact absurd same (absent entry inside)
  have inside := (List.getElem?_eq_some_iff.mp found).1
  obtain ⟨last, lastFound⟩ : ∃ last, entries[entries.length - 1]? = some last :=
    ⟨_, List.getElem?_eq_getElem (by omega)⟩
  obtain ⟨endDe, read, lastIs, lastBytes⟩ := rows.read inv.cache isOpen small lastFound
  have place : (entries.length - 1) * direntSize = entries.length * direntSize - direntSize := by
    rw [Nat.sub_mul, Nat.one_mul]
  have fits : (k + 1) * direntSize ≤ entries.length * direntSize := Nat.mul_le_mul_right _ inside
  rw [Nat.succ_mul] at fits
  rw [rows.size] at small
  obtain ⟨_, moved, write, written⟩ := @inodeWrite_spec base created s p dNo endDe direntSize (k * direntSize) inv isOpen
    (by omega) (.inl (by decide))
  have movedOpen := isOpen.same written.steady.toSameCache
  obtain ⟨result, after, change, resized⟩ := @inodeSizeChange_spec base created moved p dNo
    (entries.length * direntSize - direntSize) written.own movedOpen (by omega)
  -- The write stays inside the file and the change makes it smaller, so neither asks for a block.
  have wrote := (inodeWrite_inside write (by rw [size]; omega)).1
  obtain ⟨_, sizeMoved, bytes⟩ := written.done wrote
  have sameSize : fileSize moved dNo = entries.length * direntSize := by
    rw [sizeMoved, rows.size]
    omega
  have fine : ¬ result < 0 := by
    have sizeIs : (moved.inode p).diskInode.fileSize = entries.length * direntSize := by
      rw [← current_open movedOpen written.own.cache]
      exact sameSize
    exact inodeSizeChange_shrinks change (by rw [sizeIs]; exact small) (by rw [sizeIs]; omega)
  have sizeAfter := (resized.done fine).2
  refine ⟨k, entry, after, found, same, ?_, ?_, ?_, ?_⟩
  · simp only [direntDelete, ran, Bind.bind, Except.bind, size]
    rw [if_neg (natCast_ne_isntExist _)]
    simp only [← place, read, Int.toNat_natCast, write]
    rw [place, change]
    rfl
  · exact ⟨resized.own, fun synced => resized.synced (written.synced synced), written.steady.trans resized.recut.toSteady,
      fun jNo bound => (resized.recut.marks jNo bound).trans (written.marks jNo bound),
      written.others.trans (resized.recut.others written.own.placed movedOpen)⟩
  · refine rows.removed inside lastFound lastIs sizeAfter ?_
    intro b bound
    rw [resized.recut.bytes written.own.placed movedOpen b (by omega)]
    exact bytes b (by omega) (.inr (by rw [rows.size]; omega))
  · rw [written.own.sizeChange_spare movedOpen change fine, inv.write_spare isOpen write wrote]

end

def cname : Nat → Buffer → List UInt8
  | 0, _ => []
  | left + 1, buf => if buf 0 = 0 then [] else buf 0 :: cname left fun i => buf (i + 1)

def Dirent.entry (de : Dirent) : Entry where
  name := cname nameBytes de.filename
  iNo := de.iNo
  fType := de.fType

def dirEntries (s : State) (dNo : Nat) : List Entry :=
  (List.range (fileSize s dNo / direntSize)).map fun k =>
    (Dirent.load fun i => content s dNo (k * direntSize + i)).entry

theorem cname_spells {left : Nat} {buf : Buffer} {name : List UInt8} (spells : Spells buf name) (nonzero : 0 ∉ name)
    (room : name.length < left) : cname left buf = name := by
  induction name generalizing left buf with
  | nil =>
    cases left with
    | zero => omega
    | succ left => rw [cname, if_pos spells.nil]
  | cons c name ih =>
    cases left with
    | zero => omega
    | succ left =>
      obtain ⟨char, rest⟩ := spells.tail
      have positive : c ≠ 0 := fun same => nonzero (same ▸ List.mem_cons_self ..)
      rw [cname, char, if_neg positive, ih rest (fun inside => nonzero (List.mem_cons_of_mem _ inside)) (by simpa using room)]

theorem Dirent.Is.entry_eq {de : Dirent} {entry : Entry} (is : de.Is entry) (good : EntryName entry.name) :
    de.entry = entry := by
  have named : cname nameBytes de.filename = entry.name := cname_spells is.name good.nonzero good.short
  rw [Dirent.entry, named, is.iNo, is.fType]

theorem Rows.dirEntries_eq {entries : List Entry} (rows : Rows s dNo entries) : dirEntries s dNo = entries := by
  have count : fileSize s dNo / direntSize = entries.length := by
    rw [rows.size]
    exact Nat.mul_div_cancel _ (by decide)
  rw [dirEntries, count]
  apply List.ext_getElem?
  intro k
  rw [List.getElem?_map]
  cases found : entries[k]? with
  | none =>
    have beyond := List.getElem?_eq_none_iff.mp found
    rw [List.getElem?_eq_none (by simpa using beyond)]
    rfl
  | some entry =>
    have inside := (List.getElem?_eq_some_iff.mp found).1
    rw [List.getElem?_range inside]
    exact congrArg some ((rows.entry k entry found).entry_eq (rows.name entry (List.mem_of_getElem? found)))

theorem Lists.dirEntries_eq {entries : List Entry} (lists : Lists s dNo entries) : dirEntries s dNo = entries :=
  lists.rows.dirEntries_eq

end RecoverOs.Fs
