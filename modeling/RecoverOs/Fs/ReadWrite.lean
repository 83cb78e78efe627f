import RecoverOs.Fs.File
import RecoverOs.Fs.FileData
import RecoverOs.Memory.PoolLimits

namespace RecoverOs.Fs

open Bytes Lib Memory.Pool Transition

def blockCnt (offset nbyte : Nat) : Nat :=
  ((offset + nbyte + blockSize - 1) % 2 ^ 64 / blockSize + 2 ^ 64 - offset / blockSize) % 2 ^ 64

/-- The page that `block_read` or `block_modify` takes and gives back. -/
def blockPage (pool : MemPool) : Except Halt MemPool := do
  let (iobuf, pool) ← poolAlloc pool 1
  poolFree pool iobuf 1

def blockPages (pool : MemPool) : Nat → Except Halt MemPool
  | 0 => .ok pool
  | cnt + 1 => do
    let pool ← blockPages pool cnt
    blockPage pool

/-- The loops over the blocks stay in `direct`, and the `memcpy` stays in `io_buf`. -/
def ioStays (cnt offset nbyte : Nat) : Except Halt Unit :=
  if ndirect < offset / blockSize + cnt ∨ cnt * pgSize < offset % blockSize + nbyte then .error .fault else .ok ()

def inodeReadPaged (s : State) (pool : MemPool) (p : Ptr) (nbyte offset : Nat) :
    Except Halt (Nat × Buffer × MemPool) :=
  let diskInode := (s.inode p).diskInode
  if diskInode.fileSize ≤ offset then .ok (0, (fun _ => 0), pool)
  else
    let nbyte := if diskInode.fileSize < (nbyte + offset) % 2 ^ 64 then diskInode.fileSize - offset else nbyte
    let blockStart := offset / blockSize
    let cnt := blockCnt offset nbyte
    do
      let (ioBuf, pool) ← poolAlloc pool cnt
      ioStays cnt offset nbyte
      let pool ← blockPages pool cnt
      let pool ← poolFree pool ioBuf cnt
      return (nbyte, fun i => readBlocks s.disk diskInode.direct blockStart cnt (offset % blockSize + i), pool)

def writeDataPaged (s : State) (pool : MemPool) (p : Ptr) (buf : Buffer) (nbyte offset : Nat) :
    Except Halt (Int × State × MemPool) := do
  let direct := (s.inode p).diskInode.direct
  let blockStart := offset / blockSize
  let cnt := blockCnt offset nbyte
  let (ioBuf, pool) ← poolAlloc pool cnt
  ioStays cnt offset nbyte
  let io := copy (readBlocks s.disk direct blockStart cnt) (offset % blockSize) buf nbyte
  let pool ← blockPages pool (cnt + cnt)
  let pool ← poolFree pool ioBuf cnt
  return ((nbyte : Int), { s with disk := writeBlocks s.disk direct blockStart io cnt }, pool)

/-- The blocks that `inode_size_change` reads and writes take the same page one after the other. -/
def inodeWritePaged (s : State) (pool : MemPool) (p : Ptr) (buf : Buffer) (nbyte offset : Nat) :
    Except Halt (Int × State × MemPool) :=
  let last := (offset + nbyte) % 2 ^ 64
  if (s.inode p).diskInode.fileSize < last then do
    let pool ← (if ndirect * blockSize < last then .ok pool else blockPage pool)
    let (success, s) ← inodeSizeChange s p last
    if success < 0 then return (success, s, pool) else writeDataPaged s pool p buf nbyte offset
  else writeDataPaged s pool p buf nbyte offset

/-- `sys_read` of a file; devices and pipes take no page of the kernel. -/
def sysReadPaged (s : Files) (pool : MemPool) (t : Tid) (fd : Int) (count : Nat) :
    Except Halt (Int × List UInt8 × Files × MemPool) :=
  let i := (fdEntry s t fd).toNat
  match fdRejected s t fd, (s.fileTable i).fType, (s.fileTable i).fInode with
  | false, .dir, some (.inode p) | false, .reg, some (.inode p) => do
    let fs ← semaDown s.fs p
    let (nbyte, data, pool) ← inodeReadPaged fs pool p count (s.fileTable i).fPos.toNat
    let fs ← semaUp fs p
    let s := { s with fs := fs }
    return ((nbyte : Int), (List.range nbyte).map data,
      (if 0 < nbyte then s.setFile i fun file => { file with fPos := file.fPos + nbyte } else s), pool)
  | _, _, _ => (sysRead s t fd count).map fun (nbyte, data, s) => (nbyte, data, s, pool)

def sysWritePaged (s : Files) (pool : MemPool) (t : Tid) (fd : Int) (buf : Buffer) (count : Nat) :
    Except Halt (Int × Files × MemPool) :=
  let i := (fdEntry s t fd).toNat
  match fdRejected s t fd, (s.fileTable i).fType, (s.fileTable i).fInode with
  | false, .reg, some (.inode p) => do
    let fs ← semaDown s.fs p
    let (nbyte, fs, pool) ← inodeWritePaged fs pool p buf count (s.fileTable i).fPos.toNat
    let fs ← semaUp fs p
    let s := { s with fs := fs }
    return (nbyte, (if 0 < nbyte then s.setFile i fun file => { file with fPos := file.fPos + nbyte } else s), pool)
  | _, _, _ => (sysWrite s t fd buf count).map fun (nbyte, s) => (nbyte, s, pool)

variable {base : Nat} {created : Nat → Prop} {fs : State} {pool : MemPool} {config : Config} {p : Ptr} {iNo : Nat}
  {buf : Buffer} {nbyte offset : Nat}

theorem blockCnt_eq (fits : offset + nbyte + blockSize ≤ 2 ^ 64) : blockCnt offset nbyte = blockSpan offset nbyte := by
  simp only [blockCnt, blockSpan, divRoundUp, blockSize] at fits ⊢
  omega

theorem ioStays_wrapped (wraps : 2 ^ 64 ≤ offset + nbyte) :
    ioStays (blockCnt offset nbyte) offset nbyte = .error .fault := by
  apply if_pos
  simp only [blockCnt, ndirect, blockSize, pgSize] at wraps ⊢
  omega

theorem ioStays_inside (small : offset + nbyte ≤ ndirect * blockSize) (spans : 0 < nbyte ∨ offset % blockSize ≠ 0) :
    ioStays (blockCnt offset nbyte) offset nbyte = .ok () ∧ 1 ≤ blockCnt offset nbyte ∧
      blockCnt offset nbyte ≤ ndirect := by
  simp only [blockCnt, ndirect, blockSize] at small spans ⊢
  refine ⟨if_neg ?_, by omega, by omega⟩
  simp only [ndirect, blockSize, pgSize]
  omega

theorem blockCnt_aligned (aligned : offset % blockSize = 0) (low : offset ≤ ndirect * blockSize) :
    blockCnt offset 0 = 0 := by
  simp only [blockCnt, ndirect, blockSize] at aligned low ⊢
  omega

theorem blockPage_ok (shape : Shape config pool) (free : FreeRun pool.poolBitmap 1) : blockPage pool = .ok pool := by
  obtain ⟨addr, next, alloc, back, _⟩ := poolAlloc_returns shape free (Nat.le_refl 1) (by decide) (Nat.le_refl 1)
  simp only [blockPage, alloc, Bind.bind, Except.bind, back]

theorem blockPages_ok (shape : Shape config pool) (free : FreeRun pool.poolBitmap 1) (cnt : Nat) :
    blockPages pool cnt = .ok pool := by
  induction cnt with
  | zero => rfl
  | succ cnt ih => simp only [blockPages, ih, Bind.bind, Except.bind, blockPage_ok shape free]

section

variable (shape : Shape config pool) (free : FreeRun pool.poolBitmap 16)
include shape free

/-- The buffer of a read or a write leaves a page for the blocks, and all pages are given back. -/
theorem ioBuf_ok {cnt : Nat} (one : 1 ≤ cnt) (few : cnt ≤ ndirect) : ∃ ioBuf next, poolAlloc pool cnt = .ok (ioBuf, next) ∧
    (∀ k, blockPages next k = .ok next) ∧ poolFree next ioBuf cnt = .ok pool := by
  simp only [ndirect] at few
  obtain ⟨ioBuf, next, alloc, back, nextShape, rest⟩ := poolAlloc_returns shape free one (by omega) (by omega)
  exact ⟨ioBuf, next, alloc, blockPages_ok nextShape (rest (by omega)), back⟩

theorem inodeReadPaged_eq (size : (fs.inode p).diskInode.fileSize ≤ ndirect * blockSize) (fits : offset + nbyte < 2 ^ 64)
    (spans : 0 < nbyte ∨ offset % blockSize ≠ 0) : inodeReadPaged fs pool p nbyte offset =
      (inodeRead fs p nbyte offset).map fun (read, data) => (read, data, pool) := by
  by_cases past : (fs.inode p).diskInode.fileSize ≤ offset
  · simp only [inodeReadPaged, inodeRead, if_pos past]
    rfl
  simp only [inodeReadPaged, inodeRead, if_neg past, if_neg (show ¬ 2 ^ 64 ≤ nbyte + offset by omega),
    Nat.mod_eq_of_lt (show nbyte + offset < 2 ^ 64 by omega)]
  generalize read : (if (fs.inode p).diskInode.fileSize < nbyte + offset then (fs.inode p).diskInode.fileSize - offset
    else nbyte) = n
  have inside : offset + n ≤ ndirect * blockSize := by
    split at read
    · omega
    · omega
  have some' : 0 < n ∨ offset % blockSize ≠ 0 := by
    split at read
    · omega
    · omega
  obtain ⟨stays, one, few⟩ := ioStays_inside inside some'
  obtain ⟨ioBuf, next, alloc, pages, back⟩ := ioBuf_ok shape free one few
  have cnt : blockCnt offset n = blockSpan offset n := by
    apply blockCnt_eq
    simp only [ndirect, blockSize] at inside ⊢
    omega
  rw [cnt] at stays alloc back ⊢
  have spanned : ioPages (blockSpan offset n) = .ok () := ioPages_ok.mpr (blockSpan_pos.mpr some')
  simp only [alloc, Bind.bind, Except.bind, stays, pages, back, spanned]
  rfl

theorem writeDataPaged_eq (small : offset + nbyte ≤ ndirect * blockSize) (spans : 0 < nbyte ∨ offset % blockSize ≠ 0) :
    writeDataPaged fs pool p buf nbyte offset =
      (writeBack fs p buf nbyte offset).map fun (written, fs) => (written, fs, pool) := by
  obtain ⟨stays, one, few⟩ := ioStays_inside small spans
  obtain ⟨ioBuf, next, alloc, pages, back⟩ := ioBuf_ok shape free one few
  have cnt : blockCnt offset nbyte = blockSpan offset nbyte := by
    apply blockCnt_eq
    simp only [ndirect, blockSize] at small ⊢
    omega
  have fits : ¬ 2 ^ 64 ≤ offset + nbyte := by
    simp only [ndirect, blockSize] at small
    omega
  rw [cnt] at stays alloc back
  have spanned : ioPages (blockSpan offset nbyte) = .ok () := ioPages_ok.mpr (blockSpan_pos.mpr spans)
  rw [writeDataPaged, writeBack, if_neg fits]
  dsimp only
  rw [cnt, alloc, spanned]
  simp only [Bind.bind, Except.bind, stays, pages, back]
  rfl

theorem inodeWritePaged_eq (size : (fs.inode p).diskInode.fileSize ≤ ndirect * blockSize) (fits : offset + nbyte < 2 ^ 64)
    (spans : 0 < nbyte ∨ offset % blockSize ≠ 0) : inodeWritePaged fs pool p buf nbyte offset =
      (inodeWrite fs p buf nbyte offset).map fun (written, fs) => (written, fs, pool) := by
  have page : blockPage pool = .ok pool := by
    obtain ⟨first, inside, clear⟩ := free
    exact blockPage_ok shape ⟨first, by omega, fun k less => clear k (by omega)⟩
  simp only [inodeWritePaged, inodeWrite, Nat.mod_eq_of_lt fits]
  by_cases grows : (fs.inode p).diskInode.fileSize < offset + nbyte
  · simp only [if_pos grows]
    by_cases large : ndirect * blockSize < offset + nbyte
    · have fails : inodeSizeChange fs p (offset + nbyte) = .ok (-fileSizeTooBig, fs) := by
        rw [inodeSizeChange, if_pos large]
      have negative : -fileSizeTooBig < 0 := by decide
      simp only [if_pos large, fails, Bind.bind, Except.bind, if_pos negative]
      rfl
    · simp only [if_neg large, page, Bind.bind, Except.bind]
      cases inodeSizeChange fs p (offset + nbyte) with
      | error halt => rfl
      | ok result =>
        obtain ⟨success, sized⟩ := result
        dsimp only
        split
        · rfl
        · exact writeDataPaged_eq shape free (by omega) spans
  · simp only [if_neg grows]
    exact writeDataPaged_eq shape free (by omega) spans

end

theorem inodeReadPaged_none (before : offset < (fs.inode p).diskInode.fileSize)
    (size : (fs.inode p).diskInode.fileSize ≤ ndirect * blockSize) (aligned : offset % blockSize = 0) :
    inodeReadPaged fs pool p 0 offset = .error .panic := by
  have low : offset < 2 ^ 64 := by
    simp only [ndirect, blockSize] at size
    omega
  have none : blockCnt offset 0 = 0 := blockCnt_aligned aligned (by omega)
  rw [inodeReadPaged, if_neg (Nat.not_le.mpr before), Nat.zero_add, Nat.mod_eq_of_lt low, if_neg (Nat.lt_asymm before)]
  dsimp only
  rw [none, poolAlloc_zero]
  rfl

theorem inodeReadPaged_wraps (before : offset < (fs.inode p).diskInode.fileSize)
    (size : (fs.inode p).diskInode.fileSize ≤ ndirect * blockSize) (small : nbyte < 2 ^ 64)
    (wraps : 2 ^ 64 ≤ offset + nbyte) : ∃ halt, inodeReadPaged fs pool p nbyte offset = .error halt := by
  have unclipped : ¬ (fs.inode p).diskInode.fileSize < (nbyte + offset) % 2 ^ 64 := by
    simp only [ndirect, blockSize] at size
    omega
  have leaves := ioStays_wrapped wraps
  rw [inodeReadPaged, if_neg (Nat.not_le.mpr before), if_neg unclipped]
  dsimp only
  rw [leaves]
  exact bind_fails fun _ => ⟨.fault, rfl⟩

theorem inodeWritePaged_none (inside : offset ≤ (fs.inode p).diskInode.fileSize)
    (size : (fs.inode p).diskInode.fileSize ≤ ndirect * blockSize) (aligned : offset % blockSize = 0) :
    inodeWritePaged fs pool p buf 0 offset = .error .panic := by
  have low : offset < 2 ^ 64 := by
    simp only [ndirect, blockSize] at size
    omega
  have none : blockCnt offset 0 = 0 := blockCnt_aligned aligned (by omega)
  rw [inodeWritePaged, Nat.add_zero, Nat.mod_eq_of_lt low, if_neg (Nat.not_lt.mpr inside), writeDataPaged]
  dsimp only
  rw [none, poolAlloc_zero]
  rfl

theorem inodeWritePaged_wraps (inside : offset ≤ (fs.inode p).diskInode.fileSize)
    (size : (fs.inode p).diskInode.fileSize ≤ ndirect * blockSize) (small : nbyte < 2 ^ 64)
    (wraps : 2 ^ 64 ≤ offset + nbyte) : ∃ halt, inodeWritePaged fs pool p buf nbyte offset = .error halt := by
  have covered : ¬ (fs.inode p).diskInode.fileSize < (offset + nbyte) % 2 ^ 64 := by
    simp only [ndirect, blockSize] at size
    omega
  have leaves := ioStays_wrapped wraps
  rw [inodeWritePaged, if_neg covered, writeDataPaged]
  dsimp only
  rw [leaves]
  exact bind_fails fun _ => ⟨.fault, rfl⟩

def filePos (s : Files) (t : Tid) (fd : Int) : Int := (s.fileTable (fdEntry s t fd).toNat).fPos

structure OpenReg (s : Files) (t : Tid) (fd : Int) (p : Ptr) (iNo : Nat) : Prop where
  accepted : fdRejected s t fd = false
  isReg : (s.fileTable (fdEntry s t fd).toNat).fType = .reg
  inode : (s.fileTable (fdEntry s t fd).toNat).fInode = some (.inode p)
  isOpen : IsOpen s.fs p iNo
  unlocked : (s.fs.inode p).inodeLock = 1
  low : 0 ≤ filePos s t fd
  high : filePos s t fd ≤ fileSize s.fs iNo

/-- `sys_read` returns the bytes from the position on, as many as are asked for and are there, and moves past them. -/
def ReadRight (s : Files) (pool : MemPool) (t : Tid) (fd : Int) (iNo count : Nat) : Prop :=
  let pos := (filePos s t fd).toNat
  let nbyte := min count (fileSize s.fs iNo - pos)
  ∃ after pool', sysReadPaged s pool t fd count =
      .ok ((nbyte : Int), (List.range nbyte).map (fun b => content s.fs iNo (pos + b)), after, pool') ∧
    filePos after t fd = filePos s t fd + nbyte

/-- `sys_write` writes all bytes and moves past them if the file may grow so far and the blocks suffice; if not, the
    result is negative and the file and the position are as before. -/
def WriteRight (s : Files) (pool : MemPool) (t : Tid) (fd : Int) (p : Ptr) (iNo : Nat) (buf : Buffer) (count : Nat) :
    Prop :=
  let pos := (filePos s t fd).toNat
  if pos + count ≤ ndirect * blockSize ∧ neededBlocks s.fs p (pos + count) ≤ freeBlocks s.fs then
    ∃ after pool', sysWritePaged s pool t fd buf count = .ok ((count : Int), after, pool') ∧
      filePos after t fd = filePos s t fd + count ∧ fileSize after.fs iNo = max (fileSize s.fs iNo) (pos + count) ∧
      ∀ k < fileSize after.fs iNo, content after.fs iNo k = overlay (content s.fs iNo) buf count pos k
  else
    ∃ result after pool', sysWritePaged s pool t fd buf count = .ok (result, after, pool') ∧ result < 0 ∧
      filePos after t fd = filePos s t fd ∧ Agree (· = iNo) s.fs after.fs

variable {s : Files} {t : Tid} {fd : Int} {count : Nat}

def State.locked (fs : State) (p : Ptr) : State := fs.setInode p fun inode => { inode with inodeLock := 0 }

/-- The end of both calls: the position moves by a number of bytes that is positive. -/
def Files.moved (s : Files) (fs : State) (t : Tid) (fd nbyte : Int) : Files :=
  if 0 < nbyte then
    { s with fs := fs }.setFile (fdEntry s t fd).toNat fun file => { file with fPos := file.fPos + nbyte }
  else { s with fs := fs }

theorem moved_fs (s : Files) (fs : State) (t : Tid) (fd nbyte : Int) : (s.moved fs t fd nbyte).fs = fs := by
  unfold Files.moved
  split <;> rfl

theorem moved_filePos (s : Files) (fs : State) (t : Tid) (fd nbyte : Int) :
    filePos (s.moved fs t fd nbyte) t fd = filePos s t fd + max nbyte 0 := by
  unfold Files.moved
  split
  · have entry : ∀ f, fdEntry ({ s with fs := fs }.setFile (fdEntry s t fd).toNat f) t fd = fdEntry s t fd := fun _ => rfl
    rw [filePos, entry, filePos]
    simp only [Files.setFile, Function.update_self]
    omega
  · show filePos s t fd = _
    omega

theorem OpenReg.sysReadPaged_eq (reg : OpenReg s t fd p iNo) : sysReadPaged s pool t fd count = (do
    let (nbyte, data, pool) ← inodeReadPaged (s.fs.locked p) pool p count (filePos s t fd).toNat
    let fs ← semaUp (s.fs.locked p) p
    return ((nbyte : Int), (List.range nbyte).map data, s.moved fs t fd nbyte, pool)) := by
  have down : semaDown s.fs p = .ok (s.fs.locked p) := semaDown_ok.mpr ⟨reg.unlocked, rfl⟩
  simp only [sysReadPaged, reg.accepted, reg.isReg, reg.inode, down, filePos, Files.moved, Int.natCast_pos]
  rfl

theorem OpenReg.sysWritePaged_eq (reg : OpenReg s t fd p iNo) : sysWritePaged s pool t fd buf count = (do
    let (nbyte, fs, pool) ← inodeWritePaged (s.fs.locked p) pool p buf count (filePos s t fd).toNat
    let fs ← semaUp fs p
    return (nbyte, s.moved fs t fd nbyte, pool)) := by
  have down : semaDown s.fs p = .ok (s.fs.locked p) := semaDown_ok.mpr ⟨reg.unlocked, rfl⟩
  simp only [sysWritePaged, reg.accepted, reg.isReg, reg.inode, down, filePos, Files.moved]
  rfl

theorem locked_diskInode (fs : State) (p : Ptr) : ((fs.locked p).inode p).diskInode = (fs.inode p).diskInode := by
  simp [State.locked]

theorem locked_fileSize (fs : State) (p : Ptr) (jNo : Nat) : fileSize (fs.locked p) jNo = fileSize fs jNo := by
  rw [fileSize, State.locked, current_lock, fileSize]

theorem locked_content (fs : State) (p : Ptr) (jNo k : Nat) : content (fs.locked p) jNo k = content fs jNo k := by
  rw [content, State.locked, current_lock, content]
  rfl

theorem locked_raised (fs : State) (p : Ptr) : ∃ raised, semaUp (fs.locked p) p = .ok raised :=
  ⟨_, semaUp_ok.mpr ⟨by simp [State.locked], rfl⟩⟩

/-- What keeps a count from going wrong: the sum with the position fits, and there is a block to look at. -/
def CountFits (pos count : Nat) : Prop := pos + count < 2 ^ 64 ∧ ¬ (count = 0 ∧ pos % blockSize = 0)

theorem CountFits.spans {pos : Nat} (fits : CountFits pos count) : 0 < count ∨ pos % blockSize ≠ 0 := by
  rcases Nat.eq_zero_or_pos count with zero | positive
  · exact .inr fun aligned => fits.2 ⟨zero, aligned⟩
  · exact .inl positive

section

variable (inv : OwnInv base created s.fs) (reg : OpenReg s t fd p iNo) (shape : Shape config pool)
  (free : FreeRun pool.poolBitmap 16)
include inv reg

theorem OpenReg.size : fileSize s.fs iNo = (s.fs.inode p).diskInode.fileSize ∧ fileSize s.fs iNo ≤ ndirect * blockSize := by
  have member : created iNo := reg.isOpen.iNo ▸ inv.members p reg.isOpen.mem
  exact ⟨by rw [fileSize, current_open reg.isOpen inv.cache], inv.size iNo member⟩

theorem OpenReg.writes (buf : Buffer) (fits : CountFits (filePos s t fd).toNat count) : ∃ result written,
    inodeWrite (s.fs.locked p) p buf count (filePos s t fd).toNat = .ok (result, written) ∧
    (written.inode p).inodeLock = 0 ∧
    if (filePos s t fd).toNat + count ≤ ndirect * blockSize ∧
        neededBlocks s.fs p ((filePos s t fd).toNat + count) ≤ freeBlocks s.fs then
      result = count ∧ fileSize written iNo = max (fileSize s.fs iNo) ((filePos s t fd).toNat + count) ∧
        ∀ k < fileSize written iNo,
          content written iNo k = overlay (content s.fs iNo) buf count (filePos s t fd).toNat k
    else result < 0 ∧ Agree (· = iNo) s.fs written := by
  obtain ⟨size, small⟩ := reg.size inv
  have before : (filePos s t fd).toNat ≤ fileSize s.fs iNo := Int.toNat_le.mpr reg.high
  have lockedSize : ((s.fs.locked p).inode p).diskInode.fileSize = fileSize s.fs iNo := by rw [locked_diskInode, size]
  have lockHeld : ((s.fs.locked p).inode p).inodeLock = 0 := by simp [State.locked]
  have lockAgree : Agree (· = iNo) s.fs (s.fs.locked p) := .lock (· = iNo) s.fs p 0
  have needed : ∀ n, neededBlocks (s.fs.locked p) p n = neededBlocks s.fs p n := by
    intro n
    rw [neededBlocks, locked_diskInode, neededBlocks]
  have blocks : freeBlocks (s.fs.locked p) = freeBlocks s.fs := rfl
  generalize (filePos s t fd).toNat = pos at fits before ⊢
  by_cases large : ndirect * blockSize < pos + count
  · have beyond : fileSize s.fs iNo < pos + count := by omega
    have fails : inodeWrite (s.fs.locked p) p buf count pos = .ok (-fileSizeTooBig, s.fs.locked p) := by
      rw [inodeWrite, Nat.mod_eq_of_lt fits.1, lockedSize, if_pos beyond, inodeSizeChange, if_pos large]
      rfl
    refine ⟨-fileSizeTooBig, s.fs.locked p, fails, lockHeld, ?_⟩
    rw [if_neg (by omega)]
    exact ⟨by decide, lockAgree⟩
  · obtain ⟨result, written, ran, spec⟩ := @inodeWrite_spec base created (s.fs.locked p) p iNo buf count pos
      (inv.lock p 0) (reg.isOpen.same (.lock s.fs p 0)) (by omega) fits.spans
    refine ⟨result, written, ran, by rw [spec.steady.inodeLock, lockHeld], ?_⟩
    by_cases enough : neededBlocks s.fs p (pos + count) ≤ freeBlocks s.fs
    · rw [if_pos ⟨by omega, enough⟩]
      have fine := inodeWrite_enough (by omega) (by rw [needed, blocks]; exact enough) ran
      obtain ⟨number, grown, bytes⟩ := spec.done fine
      rw [locked_fileSize] at grown
      refine ⟨number, grown, ?_⟩
      intro k bound
      rw [bytes k bound (by rw [locked_fileSize]; omega), overlay, locked_content]
    · rw [if_neg (by omega)]
      have failed : result < 0 := by
        by_contra fine
        rcases inodeWrite_cases ran with ⟨success, negative, _, rfl⟩ | ⟨sized, resized, inside, _, _⟩
        · exact fine negative
        · rcases resized with rfl | ⟨success, positive, change⟩
          · rw [lockedSize, size] at inside
            have covered : blockCount (pos + count) ≤ blockCount (s.fs.inode p).diskInode.fileSize := by
              simp only [blockCount, divRoundUp, blockSize]
              omega
            rw [neededBlocks] at enough
            omega
          · apply positive
            apply (inodeSizeChange_negative change).mpr
            rw [needed, blocks]
            omega
      exact ⟨failed, lockAgree.trans (spec.failed failed).2⟩

include shape free

theorem OpenReg.read_ok (fits : filePos s t fd = fileSize s.fs iNo ∨ CountFits (filePos s t fd).toNat count) :
    ReadRight s pool t fd iNo count := by
  obtain ⟨size, small⟩ := reg.size inv
  have low := reg.low
  have lockedSize : ((s.fs.locked p).inode p).diskInode.fileSize = fileSize s.fs iNo := by rw [locked_diskInode, size]
  have reads : ∃ data, inodeReadPaged (s.fs.locked p) pool p count (filePos s t fd).toNat =
      .ok (min count (fileSize s.fs iNo - (filePos s t fd).toNat), data, pool) ∧
      ∀ b < min count (fileSize s.fs iNo - (filePos s t fd).toNat),
        data b = content s.fs iNo ((filePos s t fd).toNat + b) := by
    rcases fits with atEnd | fits
    · have past : fileSize s.fs iNo ≤ (filePos s t fd).toNat := by omega
      refine ⟨fun _ => 0, ?_, fun b bound => by omega⟩
      rw [inodeReadPaged, lockedSize, if_pos past, Nat.sub_eq_zero_of_le past, Nat.min_zero]
    · have lockedOpen := reg.isOpen.same (.lock s.fs p 0)
      obtain ⟨data, read, bytes⟩ := inodeRead_spec (inv.cache.same (.lock s.fs p 0)) lockedOpen fits.1 fits.spans
      have sameSize := locked_fileSize s.fs p iNo
      rw [State.locked] at sameSize
      rw [sameSize] at read bytes
      refine ⟨data, ?_, ?_⟩
      · rw [inodeReadPaged_eq shape free (by rw [lockedSize]; exact small) fits.1 fits.spans, State.locked, read]
        rfl
      · intro b bound
        rw [bytes b bound]
        exact locked_content s.fs p iNo _
  obtain ⟨data, read, bytes⟩ := reads
  obtain ⟨raised, up⟩ := locked_raised s.fs p
  have same : (List.range (min count (fileSize s.fs iNo - (filePos s t fd).toNat))).map data =
      (List.range (min count (fileSize s.fs iNo - (filePos s t fd).toNat))).map
        fun b => content s.fs iNo ((filePos s t fd).toNat + b) := by
    apply List.map_congr_left
    intro b inside
    exact bytes b (List.mem_range.mp inside)
  refine ⟨s.moved raised t fd (min count (fileSize s.fs iNo - (filePos s t fd).toNat) : Nat), pool, ?_, ?_⟩
  · rw [reg.sysReadPaged_eq, read]
    simp only [Bind.bind, Except.bind, up, same]
    rfl
  · rw [moved_filePos, Int.max_eq_left (Int.natCast_nonneg _)]

theorem OpenReg.write_ok (fits : CountFits (filePos s t fd).toNat count) : WriteRight s pool t fd p iNo buf count := by
  obtain ⟨size, small⟩ := reg.size inv
  obtain ⟨result, written, ran, held, spec⟩ := reg.writes inv buf fits
  have up := semaUp_ok.mpr ⟨held, rfl⟩
  have paged : inodeWritePaged (s.fs.locked p) pool p buf count (filePos s t fd).toNat = .ok (result, written, pool) := by
    rw [inodeWritePaged_eq shape free (by rw [locked_diskInode, ← size]; exact small) fits.1 fits.spans, ran]
    rfl
  have raised : Agree (· = iNo) written _ := .lock (· = iNo) written p 1
  have call : sysWritePaged s pool t fd buf count = .ok (result, s.moved
      (written.setInode p fun inode => { inode with inodeLock := 1 }) t fd result, pool) := by
    rw [reg.sysWritePaged_eq, paged]
    simp only [Bind.bind, Except.bind, up]
    rfl
  rw [WriteRight]
  split at spec
  · rename_i room
    obtain ⟨rfl, grown, bytes⟩ := spec
    rw [if_pos room]
    refine ⟨_, pool, call, ?_, ?_, ?_⟩
    · rw [moved_filePos, Int.max_eq_left (Int.natCast_nonneg _)]
    · rw [moved_fs, raised.size iNo rfl, grown]
    · rw [moved_fs]
      intro k bound
      rw [raised.size iNo rfl] at bound
      rw [raised.byte iNo rfl k bound, bytes k bound]
  · rename_i full
    obtain ⟨negative, unchanged⟩ := spec
    rw [if_neg full]
    refine ⟨result, _, pool, call, negative, ?_, ?_⟩
    · rw [moved_filePos, Int.max_eq_right (Int.le_of_lt negative), Int.add_zero]
    · rw [moved_fs]
      exact unchanged.trans raised

end

section

variable (inv : OwnInv base created s.fs) (reg : OpenReg s t fd p iNo) (small : count < 2 ^ 64)
include inv reg small

theorem OpenReg.read_halts (before : filePos s t fd < fileSize s.fs iNo)
    (wrong : ¬ CountFits (filePos s t fd).toNat count) : ∃ halt, sysReadPaged s pool t fd count = .error halt := by
  obtain ⟨size, bound⟩ := reg.size inv
  have low := reg.low
  have lockedSize : ((s.fs.locked p).inode p).diskInode.fileSize = fileSize s.fs iNo := by rw [locked_diskInode, size]
  have fails : ∃ halt, inodeReadPaged (s.fs.locked p) pool p count (filePos s t fd).toNat = .error halt := by
    by_cases wraps : 2 ^ 64 ≤ (filePos s t fd).toNat + count
    · exact inodeReadPaged_wraps (by omega) (by omega) small wraps
    · rw [CountFits, not_and_not_right] at wrong
      obtain ⟨rfl, aligned⟩ := wrong (by omega)
      exact ⟨.panic, inodeReadPaged_none (by omega) (by omega) aligned⟩
  obtain ⟨halt, fails⟩ := fails
  exact ⟨halt, by rw [reg.sysReadPaged_eq, fails]; rfl⟩

theorem OpenReg.write_halts (wrong : ¬ CountFits (filePos s t fd).toNat count) :
    ∃ halt, sysWritePaged s pool t fd buf count = .error halt := by
  obtain ⟨size, bound⟩ := reg.size inv
  have high := reg.high
  have lockedSize : ((s.fs.locked p).inode p).diskInode.fileSize = fileSize s.fs iNo := by rw [locked_diskInode, size]
  have fails : ∃ halt, inodeWritePaged (s.fs.locked p) pool p buf count (filePos s t fd).toNat = .error halt := by
    by_cases wraps : 2 ^ 64 ≤ (filePos s t fd).toNat + count
    · exact inodeWritePaged_wraps (by omega) (by omega) small wraps
    · rw [CountFits, not_and_not_right] at wrong
      obtain ⟨rfl, aligned⟩ := wrong (by omega)
      exact ⟨.panic, inodeWritePaged_none (by omega) (by omega) aligned⟩
  obtain ⟨halt, fails⟩ := fails
  exact ⟨halt, by rw [reg.sysWritePaged_eq, fails]; rfl⟩

/-- Which counts `sys_read` and `sys_write` serve as they should. -/
theorem read_write_right_iff (buf : Buffer) (shape : Shape kernelMemPool pool) (free : FreeRun pool.poolBitmap 16) :
    (ReadRight s pool t fd iNo count ↔
      filePos s t fd = fileSize s.fs iNo ∨ CountFits (filePos s t fd).toNat count) ∧
    (WriteRight s pool t fd p iNo buf count ↔ CountFits (filePos s t fd).toNat count) := by
  refine ⟨⟨?_, reg.read_ok inv shape free⟩, ⟨?_, reg.write_ok inv shape free⟩⟩
  · intro ⟨after, pool', ran, _⟩
    by_contra wrong
    rw [not_or] at wrong
    have high := reg.high
    obtain ⟨halt, fails⟩ := @OpenReg.read_halts base created pool p iNo s t fd count inv reg small (by omega) wrong.2
    rw [fails] at ran
    cases ran
  · intro right
    by_contra wrong
    obtain ⟨halt, fails⟩ := @OpenReg.write_halts base created pool p iNo buf s t fd count inv reg small wrong
    rw [WriteRight] at right
    split at right
    · obtain ⟨after, pool', ran, _⟩ := right
      rw [fails] at ran
      cases ran
    · obtain ⟨result, after, pool', ran, _⟩ := right
      rw [fails] at ran
      cases ran

end

def emptyPool : MemPool := memPoolInit kernelMemPool fun _ => false

def openAt (fs : State) (p : Ptr) (pos : Int) : Files :=
  ((Files.start fs 1).setFile 0 fun _ => { fPos := pos, fInode := some (.inode p), fType := .reg }).setFd 0 0 0
    (some (.inode p))

/-- From byte 90 of a file of 100 bytes 50 bytes are read, of which there are 10, and 50 are written. -/
theorem read_write_right_inside : ∃ fs s, format (fun _ _ => 7) ⟨64, 800⟩ = .ok fs ∧
    run Session.step (Session.start fs) [.diskInodeCreate, .inodeOpen 1, .inodeWrite 1 (fun _ => 5) 100 0] = .ok s ∧
    ReadRight (openAt s.fs 1 90) emptyPool 0 0 1 50 ∧ WriteRight (openAt s.fs 1 90) emptyPool 0 0 1 1 (fun _ => 9) 50 := by
  have evaluated : endsIn (format (fun _ _ => 7) ⟨64, 800⟩) (fun fs =>
      endsIn (run Session.step (Session.start fs) [.diskInodeCreate, .inodeOpen 1, .inodeWrite 1 (fun _ => 5) 100 0])
        fun s => decide (s.fs.openInodes = [1] ∧ (s.fs.inode 1).iNo = 1 ∧ (s.fs.inode 1).inodeLock = 1 ∧
          fileSize s.fs 1 = 100)) = true := by
    decide +kernel
  obtain ⟨fs, formatted, rest⟩ := exists_of_endsIn evaluated
  obtain ⟨s, ran, facts⟩ := exists_of_endsIn rest
  obtain ⟨opened, number, unlocked, size⟩ := of_decide_eq_true facts
  have inv := run_invariant (fun s op after inv _ ran => session_step s op after inv ran)
    (format_start formatted) (meets_true Session.step (Session.start fs) _) ran
  have reg : OpenReg (openAt s.fs 1 90) 0 0 1 1 := by
    refine ⟨rfl, rfl, rfl, ⟨?_, number⟩, unlocked, Int.natCast_nonneg 90, ?_⟩
    · show 1 ∈ s.fs.openInodes
      rw [opened]
      exact List.mem_singleton.mpr rfl
    · show (90 : Int) ≤ fileSize s.fs 1
      rw [size]
      decide
  have right := @read_write_right_iff _ _ emptyPool 1 1 (openAt s.fs 1 90) 0 0 50 inv.own reg (by decide) (fun _ => 9)
    ⟨rfl, rfl⟩ (by decide +kernel)
  have fits : CountFits 90 50 := ⟨by decide, by decide⟩
  exact ⟨fs, s, formatted, ran, right.1.mpr (.inr fits), right.2.mpr fits⟩

/-- Writing nothing to a new file asks the pool for 0 pages. -/
theorem write_nothing_panics : ∃ fs made s, format (fun _ _ => 7) ⟨64, 800⟩ = .ok fs ∧
    sysMknod fs [47, 102] .reg 0 = .ok (1, made) ∧ sysOpen (Files.start made 1) 0 [47, 102] = .ok (0, s) ∧
    OpenReg s 0 0 2 1 ∧ Shape kernelMemPool emptyPool ∧ FreeRun emptyPool.poolBitmap 16 ∧
    sysWritePaged s emptyPool 0 0 (fun _ => 9) 0 = .error .panic ∧ ¬ WriteRight s emptyPool 0 0 2 1 (fun _ => 9) 0 := by
  have evaluated : endsIn (format (fun _ _ => 7) ⟨64, 800⟩) (fun fs =>
      endsIn (sysMknod fs [47, 102] .reg 0) fun made => made.1 == 1 &&
        endsIn (sysOpen (Files.start made.2 1) 0 [47, 102]) fun s => s.1 == 0 &&
          decide (fdRejected s.2 0 0 = false ∧ s.2.fdTable 0 0 = 0 ∧
            s.2.fileTable 0 = { fPos := 0, fInode := some (.inode 2), fType := .reg } ∧ 2 ∈ s.2.fs.openInodes ∧
            (s.2.fs.inode 2).iNo = 1 ∧ (s.2.fs.inode 2).inodeLock = 1 ∧
            (s.2.fs.inode 2).diskInode.fileSize = 0)) = true := by
    decide +kernel
  obtain ⟨fs, formatted, rest⟩ := exists_of_endsIn evaluated
  obtain ⟨⟨number, made⟩, created, rest⟩ := exists_of_endsIn rest
  rw [Bool.and_eq_true, beq_iff_eq] at rest
  obtain ⟨rfl, rest⟩ := rest
  obtain ⟨⟨fd, s⟩, opens, rest⟩ := exists_of_endsIn rest
  rw [Bool.and_eq_true, beq_iff_eq] at rest
  obtain ⟨rfl, facts⟩ := rest
  obtain ⟨accepted, entry, slot, member, iNo, unlocked, empty⟩ := of_decide_eq_true facts
  have index : (fdEntry s 0 0).toNat = 0 := by
    show (s.fdTable 0 0).toNat = 0
    rw [entry]
    rfl
  have pos : filePos s 0 0 = 0 := by rw [filePos, index, slot]
  have reg : OpenReg s 0 0 2 1 := by
    refine ⟨accepted, by rw [index, slot], by rw [index, slot], ⟨member, iNo⟩, unlocked, by rw [pos], ?_⟩
    rw [pos]
    exact Int.natCast_nonneg _
  have panics : sysWritePaged s emptyPool 0 0 (fun _ => 9) 0 = .error .panic := by
    rw [reg.sysWritePaged_eq, pos, Int.toNat_zero, inodeWritePaged_none (Nat.zero_le _) (by rw [locked_diskInode, empty]; decide) rfl]
    rfl
  refine ⟨fs, made, s, formatted, created, opens, reg, ⟨rfl, rfl⟩, by decide +kernel, panics, ?_⟩
  intro right
  rw [WriteRight, panics] at right
  split at right
  · obtain ⟨_, _, ran, _⟩ := right
    cases ran
  · obtain ⟨_, _, _, ran, _⟩ := right
    cases ran

end RecoverOs.Fs
