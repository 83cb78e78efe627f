import RecoverOs.Memory.Space

namespace RecoverOs.Userprog

open Bytes Memory

def ehdrSize : Nat := 64
def phdrSize : Nat := 56

def etExec : Nat := 2
def emX8664 : Nat := 62
def ptLoad : Nat := 1

/-- The fields of `Elf64_Ehdr` that are read. -/
structure Ehdr where
  ident : List UInt8
  type : Nat
  machine : Nat
  version : Nat
  entry : Nat
  phoff : Nat
  phentsize : Nat
  phnum : Nat

def Ehdr.load (buf : Buffer) : Ehdr where
  ident := (List.range 16).map buf
  type := wordAt 2 buf 16
  machine := wordAt 2 buf 18
  version := wordAt 4 buf 20
  entry := wordAt 8 buf 24
  phoff := wordAt 8 buf 32
  phentsize := wordAt 2 buf 54
  phnum := wordAt 2 buf 56

/-- The fields of `Elf64_Phdr` that are read, and `filesz`, which is not. -/
structure Phdr where
  type : Nat
  offset : Nat
  vaddr : Nat
  filesz : Nat
  memsz : Nat

def Phdr.load (buf : Buffer) : Phdr where
  type := wordAt 4 buf 0
  offset := wordAt 8 buf 8
  vaddr := wordAt 8 buf 16
  filesz := wordAt 8 buf 32
  memsz := wordAt 8 buf 40

def elfMagic : List UInt8 := [0x7f, 0x45, 0x4c, 0x46, 2, 1, 1]

def Ehdr.accepted (ehdr : Ehdr) : Prop :=
  ehdr.ident.take 7 = elfMagic ∧ ehdr.type = etExec ∧ ehdr.machine = emX8664 ∧ ehdr.version = 1 ∧
    ehdr.phentsize = phdrSize

instance (ehdr : Ehdr) : Decidable ehdr.accepted := inferInstanceAs (Decidable (_ ∧ _ ∧ _ ∧ _ ∧ _))

theorem Ehdr.load_congr {left right : Buffer} (same : ∀ i < ehdrSize, left i = right i) :
    Ehdr.load left = Ehdr.load right := by
  have word : ∀ width off, off + width ≤ ehdrSize → wordAt width left off = wordAt width right off := by
    intro width off inside
    exact wordAt_congr fun i less => same (off + i) (by omega)
  simp only [Ehdr.load, Ehdr.mk.injEq]
  refine ⟨?_, word _ _ (by decide), word _ _ (by decide), word _ _ (by decide), word _ _ (by decide),
    word _ _ (by decide), word _ _ (by decide), word _ _ (by decide)⟩
  apply List.map_congr_left
  intro i member
  have small := List.mem_range.mp member
  exact same i (by simp only [ehdrSize]; omega)

theorem Phdr.load_congr {left right : Buffer} (same : ∀ i < phdrSize, left i = right i) :
    Phdr.load left = Phdr.load right := by
  have word : ∀ width off, off + width ≤ phdrSize → wordAt width left off = wordAt width right off := by
    intro width off inside
    exact wordAt_congr fun i less => same (off + i) (by omega)
  simp only [Phdr.load, Phdr.mk.injEq]
  exact ⟨word _ _ (by decide), word _ _ (by decide), word _ _ (by decide), word _ _ (by decide), word _ _ (by decide)⟩

def toSigned (n : Nat) : Int := if wrap n < 2 ^ 63 then (wrap n : Int) else (wrap n : Int) - 2 ^ 64

structure Reader where
  size : Nat
  byte : Buffer
  pos : Nat

/-- `sys_lseek` with `SEEK_SET`: a position outside the file is refused, and the old one stays. -/
def Reader.seek (r : Reader) (offset : Nat) : Reader :=
  if wrap offset < 2 ^ 63 ∧ wrap offset ≤ r.size then { r with pos := wrap offset } else r

def Reader.nbyte (r : Reader) (count : Nat) : Nat := min count (r.size - r.pos)

def Reader.skip (r : Reader) (count : Nat) : Reader := { r with pos := r.pos + r.nbyte count }

def Reader.data (r : Reader) : Buffer := fun i => r.byte (r.pos + i)

@[simp] theorem Reader.seek_size (r : Reader) (offset : Nat) : (r.seek offset).size = r.size := by
  unfold Reader.seek
  split
  · rfl
  · rfl

@[simp] theorem Reader.seek_byte (r : Reader) (offset : Nat) : (r.seek offset).byte = r.byte := by
  unfold Reader.seek
  split
  · rfl
  · rfl

@[simp] theorem Reader.skip_size (r : Reader) (count : Nat) : (r.skip count).size = r.size := rfl

@[simp] theorem Reader.skip_byte (r : Reader) (count : Nat) : (r.skip count).byte = r.byte := rfl

theorem Reader.seek_pos {r : Reader} {offset : Nat} (inside : offset < 2 ^ 63 ∧ offset ≤ r.size) :
    (r.seek offset).pos = offset := by
  have small : wrap offset = offset := Nat.mod_eq_of_lt (by omega)
  rw [Reader.seek, small, if_pos inside]

/-- What `segment_load` reads for a program header: `p_memsz` bytes from `p_offset` on, as far as the file goes. -/
def Reader.segment (r : Reader) (phdr : Phdr) : Segment where
  vaddr := phdr.vaddr
  memsz := phdr.memsz
  nbyte := (r.seek phdr.offset).nbyte phdr.memsz
  data := (r.seek phdr.offset).data
  short := Nat.min_le_left ..

structure Load where
  phdr : Phdr
  segment : Segment

def readHeaders (ehdr : Ehdr) : Nat → Nat → Reader → List Load × Bool
  | 0, _, _ => ([], true)
  | left + 1, progIdx, r =>
    let r := r.seek (ehdr.phoff + progIdx * ehdr.phentsize)
    if r.nbyte ehdr.phentsize ≠ ehdr.phentsize then ([], false)
    else
      let phdr := Phdr.load r.data
      let r := r.skip ehdr.phentsize
      if phdr.type = ptLoad then
        let (loads, complete) := readHeaders ehdr left (progIdx + 1) ((r.seek phdr.offset).skip phdr.memsz)
        (⟨phdr, r.segment phdr⟩ :: loads, complete)
      else readHeaders ehdr left (progIdx + 1) r

def Reader.ehdr (r : Reader) : Ehdr := Ehdr.load r.data

/-- The header is complete and passes the check. -/
def Reader.HeaderAccepted (r : Reader) : Prop := r.nbyte ehdrSize = ehdrSize ∧ r.ehdr.accepted

instance (r : Reader) : Decidable r.HeaderAccepted := inferInstanceAs (Decidable (_ ∧ _))

/-- The `PT_LOAD` headers of the file that are loaded, and whether all program headers are read. -/
def Reader.loads (r : Reader) : List Load × Bool :=
  if r.HeaderAccepted then readHeaders r.ehdr r.ehdr.phnum 0 (r.skip ehdrSize) else ([], false)

def Reader.image (r : Reader) : Image where
  segments := r.loads.1.map Load.segment
  complete := r.loads.2

def Reader.phdr (r : Reader) (progIdx : Nat) : Phdr := Phdr.load fun k => r.byte (r.ehdr.phoff + phdrSize * progIdx + k)

def Reader.TableInFile (r : Reader) : Prop :=
  ∀ i < r.ehdr.phnum, r.ehdr.phoff + phdrSize * i < 2 ^ 63 ∧ r.ehdr.phoff + phdrSize * i + phdrSize ≤ r.size

instance (r : Reader) : Decidable r.TableInFile := inferInstanceAs (Decidable (∀ i < _, _))

def Reader.loadHeaders (r : Reader) : List Phdr :=
  ((List.range r.ehdr.phnum).map r.phdr).filter fun phdr => phdr.type = ptLoad

end RecoverOs.Userprog
