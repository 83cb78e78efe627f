import RecoverOs.Fs.DescriptorRuns
import RecoverOs.Fs.Ring

namespace RecoverOs.Fs

open Bytes Transition

variable {s after : Files} {t : Tid} {fd i page cnt : Nat} {table : Nat → Int} {ioq : Ioqueue} {queue : List UInt8}

def ioqBytes (ioq : Ioqueue) : List UInt8 := Ring.contents ioq.buf bufsize ioq.tail (ioqLength ioq)

def ioqRoom (ioq : Ioqueue) : Nat := bufsize - 1 - ioqLength ioq

theorem holds_bytes (head : ioq.head < bufsize) (tail : ioq.tail < bufsize) : Holds ioq (ioqBytes ioq) := by
  have length : (ioqBytes ioq).length = ioqLength ioq := Ring.contents_length ..
  constructor
  case tail => exact tail
  case head =>
    rw [length, ioqLength]
    simp only [bufsize] at head tail ⊢
    split <;> omega
  case bound =>
    rw [length, ioqLength]
    simp only [bufsize] at head tail ⊢
    split <;> omega
  case bytes => rw [length, ioqBytes]

theorem Holds.ioqBytes (holds : Holds ioq queue) : ioqBytes ioq = queue := by
  rw [Fs.ioqBytes, holds.ioqLength, holds.bytes]

theorem Holds.putchar_stuck {byte : UInt8} (holds : Holds ioq queue) (full : queue.length = bufsize - 1) :
    ioqPutchar ioq byte = .error .stuck := by
  have last : (ioq.head + 1) % bufsize = ioq.tail := of_decide_eq_true (holds.full_iff.mpr full)
  rw [ioqPutchar, if_pos last]

theorem Holds.putchar_returns {byte : UInt8} (holds : Holds ioq queue) (room : queue.length ≠ bufsize - 1) :
    ∃ next, ioqPutchar ioq byte = .ok next := by
  have notLast : ¬ (ioq.head + 1) % bufsize = ioq.tail := by
    intro last
    exact room (holds.full_iff.mp (decide_eq_true last))
  rw [ioqPutchar, if_neg notLast]
  exact ⟨_, rfl⟩

theorem Holds.writeLoop_returns {buffer : Buffer} {i left : Nat} (holds : Holds ioq queue)
    (room : queue.length + left ≤ bufsize - 1) : ∃ next, pipeWriteLoop buffer ioq i left = .ok next := by
  induction left generalizing ioq queue i with
  | zero => exact ⟨ioq, rfl⟩
  | succ left ih =>
    obtain ⟨middle, first⟩ := @Holds.putchar_returns ioq queue (buffer i) holds (by omega)
    have longer := holds.putchar first
    obtain ⟨next, rest⟩ := @ih middle _ (i + 1) longer (by
      rw [List.length_append, List.length_singleton]
      omega)
    refine ⟨next, ?_⟩
    rw [pipeWriteLoop, first]
    exact rest

/-- Nobody empties the ring while the writer waits. -/
theorem Holds.writeLoop_stuck {buffer : Buffer} {i left : Nat} (holds : Holds ioq queue)
    (exceeds : bufsize - 1 < queue.length + left) : pipeWriteLoop buffer ioq i left = .error .stuck := by
  induction left generalizing ioq queue i with
  | zero =>
    have bound := holds.bound
    omega
  | succ left ih =>
    rw [pipeWriteLoop]
    by_cases full : queue.length = bufsize - 1
    · rw [holds.putchar_stuck full]
      rfl
    · obtain ⟨middle, first⟩ := @Holds.putchar_returns ioq queue (buffer i) holds full
      rw [first]
      apply ih (holds.putchar first)
      rw [List.length_append, List.length_singleton]
      omega

structure NamesPipe (s : Files) (t : Tid) (fd : Int) (page : Nat) : Prop where
  accepted : fdRejected s t fd = false
  fType : (s.fileTable (fdEntry s t fd).toNat).fType = .fifo
  fInode : (s.fileTable (fdEntry s t fd).toNat).fInode = some (.ioqueue page)

def WritesToRoom (s : Files) (t : Tid) (fd : Int) (page : Nat) (buf : Buffer) (count : Nat) : Prop :=
  ∃ ioq, pipeWrite (s.ioqueue page) buf count = .ok ioq ∧
    pipeSize (s.ioqueue page) count = min count (ioqRoom (s.ioqueue page)) ∧
    ioqBytes ioq = ioqBytes (s.ioqueue page) ++ (List.range (min count (ioqRoom (s.ioqueue page)))).map buf ∧
    sysWrite s t fd buf count = .ok ((min count (ioqRoom (s.ioqueue page)) : Nat),
      { s with ioqueue := Function.update s.ioqueue page ioq })

theorem sysWrite_pipe {fd : Int} {buf : Buffer} {count : Nat} (names : NamesPipe s t fd page) :
    sysWrite s t fd buf count = do
      let ioq ← pipeWrite (s.ioqueue page) buf count
      return ((pipeSize (s.ioqueue page) count : Int), { s with ioqueue := Function.update s.ioqueue page ioq }) := by
  rw [sysWrite, names.accepted]
  simp only [Bool.false_eq_true, if_false, names.fType, names.fInode]
  rfl

theorem pipeWrite_stuck {buf : Buffer} {count : Nat} (head : ioq.head < bufsize) (tail : ioq.tail < bufsize)
    (exceeds : ioqRoom ioq < count) : pipeWrite ioq buf count = .error .stuck := by
  have holds := holds_bytes head tail
  have length : ioqLength ioq = (ioqBytes ioq).length := holds.ioqLength
  have bound := holds.bound
  apply holds.writeLoop_stuck
  rw [pipeSize, length]
  rw [ioqRoom, length] at exceeds
  omega

/-- `pipe_write` takes one byte more than the ring does, so a longer write waits with the file table locked. -/
theorem pipe_write_never_waits_iff (s : Files) (t : Tid) (fd : Int) (page : Nat) (buf : Buffer) (count : Nat)
    (names : NamesPipe s t fd page) (head : (s.ioqueue page).head < bufsize) (tail : (s.ioqueue page).tail < bufsize) :
    WritesToRoom s t fd page buf count ↔ count ≤ ioqRoom (s.ioqueue page) := by
  have holds := holds_bytes head tail
  have length : ioqLength (s.ioqueue page) = (ioqBytes (s.ioqueue page)).length := holds.ioqLength
  constructor
  · intro ⟨ioq, ran, _⟩
    by_contra exceeds
    rw [pipeWrite_stuck head tail (Nat.not_le.mp exceeds)] at ran
    cases ran
  · intro fits
    have bound := holds.bound
    have all : min count (ioqRoom (s.ioqueue page)) = count := Nat.min_eq_left fits
    have size : pipeSize (s.ioqueue page) count = count := by
      rw [ioqRoom] at fits
      rw [pipeSize]
      omega
    have room : (ioqBytes (s.ioqueue page)).length + count ≤ bufsize - 1 := by
      rw [ioqRoom, length] at fits
      omega
    obtain ⟨ioq, ran⟩ := @Holds.writeLoop_returns _ _ buf 0 count holds room
    have written : pipeWrite (s.ioqueue page) buf count = .ok ioq := by
      rw [pipeWrite, size, ran]
    have filled := (holds.writeLoop ran).ioqBytes
    simp only [Nat.zero_add] at filled
    refine ⟨ioq, written, by rw [size, all], by rw [all, filled], ?_⟩
    rw [sysWrite_pipe names, written, size, all]
    rfl

def piped : Files := (sysPipe (Files.start deviceFs 3) 2).2.2

theorem pipe_write_never_waits_three : WritesToRoom piped 2 1 0 (fun i => UInt8.ofNat i) 3 :=
  (pipe_write_never_waits_iff piped 2 1 0 _ 3 ⟨by decide +kernel, by decide +kernel, by decide +kernel⟩
    (by decide +kernel) (by decide +kernel)).mpr (by decide +kernel)

/-- 2048 bytes into an empty pipe: the last one waits for a reader. -/
theorem pipe_write_waits : ¬ WritesToRoom piped 2 1 0 (fun _ => 0) 2048 ∧
    sysWrite piped 2 1 (fun _ => 0) 2048 = .error .stuck := by
  have names : NamesPipe piped 2 1 0 := ⟨by decide +kernel, by decide +kernel, by decide +kernel⟩
  have stuck : pipeWrite (piped.ioqueue 0) (fun _ => 0) 2048 = .error .stuck := by
    apply pipeWrite_stuck
    · decide +kernel
    · decide +kernel
    · decide +kernel
  constructor
  · intro ⟨ioq, ran, _⟩
    rw [stuck] at ran
    cases ran
  · rw [sysWrite_pipe names, stuck]
    rfl

def memberOffset : Nat → List (Nat × Nat) → Nat → Nat
  | pos, [], _ => pos
  | pos, (_, align) :: _, 0 => (pos + align - 1) / align * align
  | pos, (size, align) :: rest, i + 1 => memberOffset ((pos + align - 1) / align * align + size) rest i

/-- `i_no`, `disk_inode`, `open_cnts`, `inode_tag` and `inode_lock` of a `struct inode`. -/
def inodeMembers : List (Nat × Nat) := [(8, 8), (104, 8), (8, 8), (16, 8), (40, 8)]

/-- `iosema`, `producer`, `consumer`, `buf`, `head` and `tail` of a `struct ioqueue`. -/
def ioqueueMembers : List (Nat × Nat) := [(40, 8), (8, 8), (8, 8), (bufsize, 1), (8, 8), (8, 8)]

/-- The place in `buf` of a queue that is taken for an inode's `open_cnts`. -/
def openCntsInBuf : Nat := memberOffset 0 inodeMembers 2 - memberOffset 0 ioqueueMembers 3

def openCntsOf (ioq : Ioqueue) : Nat := wordAt 8 ioq.buf openCntsInBuf

theorem openCntsOf_bump (ioq : Ioqueue) : openCntsOf (bumpIoqueue ioq) = (openCntsOf ioq + 1) % 2 ^ 64 := by
  have place : openCntsInBuf = 56 := by decide
  have size : 256 ^ 8 = 2 ^ 64 := by decide
  rw [openCntsOf, openCntsOf, place, ← size]
  apply wordAt_stored
  intro i bound
  show copy ioq.buf 56 (byteOf (wordAt 8 ioq.buf 56 + 1)) 8 (56 + i) = byteOf (wordAt 8 ioq.buf 56 + 1) i
  rw [copy_inside (Nat.le_add_right ..) (by omega), Nat.add_sub_cancel_left]

def FdsFit (s : Files) (t : Tid) : Prop :=
  ∀ fd < maxFilesOpenPerProc, s.fdTable t fd = -1 ∨ ∃ i < fileTableSize, s.fdTable t fd = (i : Int) ∧
    ∃ object, (s.fileTable i).fInode = some object ∧ (s.fileTable i).fType.Fits object

def InPipe (s : Files) (ftIdx : Int) (page : Nat) : Prop :=
  0 ≤ ftIdx ∧ (s.fileTable ftIdx.toNat).fType = .fifo ∧ (s.fileTable ftIdx.toNat).fInode = some (.ioqueue page)

instance (s : Files) (ftIdx : Int) (page : Nat) : Decidable (InPipe s ftIdx page) := by
  unfold InPipe
  infer_instance

/-- The descriptors among the first `cnt` that belong to the pipe. -/
def pipeNamedBy (s : Files) (table : Nat → Int) (cnt page : Nat) : Nat :=
  ∑ fd ∈ Finset.range cnt, if InPipe s (table fd) page then 1 else 0

theorem pipeNamedBy_le (s : Files) (table : Nat → Int) (cnt page : Nat) : pipeNamedBy s table cnt page ≤ cnt := by
  induction cnt with
  | zero => exact Nat.le_refl 0
  | succ cnt ih =>
    rw [pipeNamedBy, Finset.sum_range_succ, ← pipeNamedBy]
    split <;> omega

theorem pipeNamedBy_pos (bound : fd < cnt) (names : InPipe s (table fd) page) : 0 < pipeNamedBy s table cnt page := by
  rw [pipeNamedBy, Nat.pos_iff_ne_zero, Ne, Finset.sum_eq_zero_iff]
  intro zero
  have one := zero fd (Finset.mem_range.mpr bound)
  rw [if_pos names] at one
  cases one

structure Bumped (s after : Files) (table : Nat → Int) (cnt : Nat) : Prop where
  fType : ∀ j, (after.fileTable j).fType = (s.fileTable j).fType
  fInode : ∀ j, (after.fileTable j).fInode = (s.fileTable j).fInode
  word : ∀ page, openCntsOf (after.ioqueue page) = (openCntsOf (s.ioqueue page) + pipeNamedBy s table cnt page) % 2 ^ 64
  quiet : ∀ page, pipeNamedBy s table cnt page = 0 → after.ioqueue page = s.ioqueue page

theorem Bumped.skip {middle : Files} (before : Bumped s middle table cnt) (fType : ∀ j, (after.fileTable j).fType =
    (middle.fileTable j).fType) (fInode : ∀ j, (after.fileTable j).fInode = (middle.fileTable j).fInode)
    (ioqueue : after.ioqueue = middle.ioqueue) (none : ∀ page, ¬ InPipe s (table cnt) page) :
    Bumped s after table (cnt + 1) := by
  have count : ∀ page, pipeNamedBy s table (cnt + 1) page = pipeNamedBy s table cnt page := by
    intro page
    rw [pipeNamedBy, Finset.sum_range_succ, if_neg (none page), Nat.add_zero, pipeNamedBy]
  constructor
  case fType => exact fun j => (fType j).trans (before.fType j)
  case fInode => exact fun j => (fInode j).trans (before.fInode j)
  case word =>
    intro page
    rw [ioqueue, count, before.word]
  case quiet =>
    intro page zero
    rw [count] at zero
    rw [ioqueue, before.quiet page zero]

theorem setFile_keeps (s : Files) (i : Nat) (j : Nat) :
    ((s.setFile i fun file => { file with fPos := file.fPos + 1 }).fileTable j).fType = (s.fileTable j).fType ∧
    ((s.setFile i fun file => { file with fPos := file.fPos + 1 }).fileTable j).fInode = (s.fileTable j).fInode := by
  rw [Files.setFile_fileTable]
  split
  · rename_i here
    rw [here]
    exact ⟨rfl, rfl⟩
  · exact ⟨rfl, rfl⟩

theorem Bumped.bump {middle : Files} (before : Bumped s middle table cnt) (names : InPipe s (table cnt) page) :
    Bumped s { middle.setFile i fun file => { file with fPos := file.fPos + 1 } with
      ioqueue := Function.update middle.ioqueue page (bumpIoqueue (middle.ioqueue page)) } table (cnt + 1) := by
  have only : ∀ other, InPipe s (table cnt) other ↔ other = page := by
    intro other
    constructor
    · intro same
      have both := same.2.2.symm.trans names.2.2
      cases both
      rfl
    · intro same
      rw [same]
      exact names
  have count : ∀ other, pipeNamedBy s table (cnt + 1) other =
      pipeNamedBy s table cnt other + if other = page then 1 else 0 := by
    intro other
    rw [pipeNamedBy, Finset.sum_range_succ, pipeNamedBy]
    simp only [only]
  constructor
  case fType => exact fun j => (setFile_keeps middle i j).1.trans (before.fType j)
  case fInode => exact fun j => (setFile_keeps middle i j).2.trans (before.fInode j)
  case word =>
    intro other
    show openCntsOf (Function.update middle.ioqueue page (bumpIoqueue (middle.ioqueue page)) other) = _
    rw [count]
    by_cases here : other = page
    · subst here
      rw [if_pos rfl, Function.update_self, openCntsOf_bump, before.word, Nat.mod_add_mod, Nat.add_assoc]
    · rw [if_neg here, Nat.add_zero, Function.update_of_ne here, before.word]
  case quiet =>
    intro other zero
    rw [count] at zero
    by_cases here : other = page
    · rw [if_pos here] at zero
      cases zero
    · rw [if_neg here, Nat.add_zero] at zero
      show Function.update middle.ioqueue page _ other = _
      rw [Function.update_of_ne here, before.quiet other zero]

theorem inheritSlots_bumped (fit : ∀ fd < cnt, table fd = -1 ∨ ∃ i < fileTableSize, table fd = (i : Int) ∧
    ∃ object, (s.fileTable i).fInode = some object ∧ (s.fileTable i).fType.Fits object) :
    ∃ after, inheritSlots s table cnt = .ok after ∧ Bumped s after table cnt := by
  induction cnt with
  | zero =>
    refine ⟨s, rfl, fun _ => rfl, fun _ => rfl, ?_, fun _ _ => rfl⟩
    intro page
    show openCntsOf (s.ioqueue page) = (openCntsOf (s.ioqueue page) + 0) % 2 ^ 64
    have bound : openCntsOf (s.ioqueue page) < 256 ^ 8 := wordAt_lt 8 _ _
    rw [Nat.add_zero, Nat.mod_eq_of_lt (by omega)]
  | succ cnt ih =>
    obtain ⟨middle, ran, before⟩ := ih fun fd bound => fit fd (Nat.lt_succ_of_lt bound)
    rcases fit cnt (Nat.lt_succ_self cnt) with unused | ⟨i, bound, entry, object, has, fits⟩
    · refine ⟨middle, ?_, before.skip (fun _ => rfl) (fun _ => rfl) rfl ?_⟩
      · rw [inheritSlots, ran, unused]
        rfl
      · intro page names
        have low := names.1
        omega
    · have used : ¬ ((i : Int) = -1) := by omega
      have type : (middle.fileTable i).fType = (s.fileTable i).fType := before.fType i
      have same : (middle.fileTable i).fInode = some object := (before.fInode i).trans has
      have step : inheritSlots s table (cnt + 1) = inheritSlot middle i := by
        rw [inheritSlots, ran, entry]
        rfl
      have notPipe : (s.fileTable i).fType ≠ .fifo → ∀ page, ¬ InPipe s (table cnt) page := by
        intro other page names
        rw [InPipe, entry, Int.toNat_natCast] at names
        exact other names.2.1
      rw [step, inheritSlot, if_neg used, Int.toNat_natCast]
      dsimp only
      rw [type, same]
      cases kind : (s.fileTable i).fType with
      | chr =>
        have other := notPipe (by rw [kind]; exact FileType.noConfusion)
        exact ⟨_, rfl, before.skip (fun j => (setFile_keeps middle i j).1) (fun j => (setFile_keeps middle i j).2) rfl
          other⟩
      | fifo =>
        rw [kind] at fits
        obtain ⟨page, rfl⟩ := fits
        have names : InPipe s (table cnt) page := by
          rw [InPipe, entry, Int.toNat_natCast]
          exact ⟨Int.natCast_nonneg i, kind, has⟩
        exact ⟨_, rfl, before.bump names⟩
      | dir =>
        rw [kind] at fits
        obtain ⟨p, rfl⟩ := fits
        have other := notPipe (by rw [kind]; exact FileType.noConfusion)
        exact ⟨_, rfl, before.skip (fun _ => rfl) (fun _ => rfl) rfl other⟩
      | reg =>
        rw [kind] at fits
        obtain ⟨p, rfl⟩ := fits
        have other := notPipe (by rw [kind]; exact FileType.noConfusion)
        exact ⟨_, rfl, before.skip (fun _ => rfl) (fun _ => rfl) rfl other⟩
      | other code =>
        rw [kind] at fits
        obtain ⟨p, rfl⟩ := fits
        have other := notPipe (by rw [kind]; exact FileType.noConfusion)
        exact ⟨_, rfl, before.skip (fun _ => rfl) (fun _ => rfl) rfl other⟩

theorem sysClone_bumped (fit : FdsFit s t) :
    ∃ after, sysClone s t = .ok ((s.tasks : Int), after) ∧ Bumped s after (s.fdTable t) maxFilesOpenPerProc := by
  obtain ⟨after, ran, bumped⟩ := @inheritSlots_bumped (copied s t) maxFilesOpenPerProc (s.fdTable t) fit
  refine ⟨after, ?_, bumped.fType, bumped.fInode, bumped.word, bumped.quiet⟩
  have table : (copied s t).fdTable s.tasks = s.fdTable t := Function.update_self ..
  show (inheritSlots (copied s t) ((copied s t).fdTable s.tasks) maxFilesOpenPerProc >>= _) = _
  rw [table, ran]
  rfl

/-- The clone leaves every queue as it was, and with it what can be read from a pipe. -/
def ClonesQuietly (s : Files) (t : Tid) : Prop :=
  ∃ child after, sysClone s t = .ok (child, after) ∧ after.ioqueue = s.ioqueue ∧
    ∀ page count, pipeRead (after.ioqueue page) count = pipeRead (s.ioqueue page) count

/-- A pipe's queue is taken for an inode, and its `open_cnts` are raised. -/
theorem clone_keeps_pipes_iff (s : Files) (t : Tid) (fit : FdsFit s t) :
    ClonesQuietly s t ↔ ∀ fd < maxFilesOpenPerProc, ∀ page, ¬ InPipe s (s.fdTable t fd) page := by
  obtain ⟨after, ran, bumped⟩ := sysClone_bumped fit
  constructor
  · intro ⟨child, other, ran', same, _⟩ fd bound page names
    rw [ran] at ran'
    cases ran'
    have count := pipeNamedBy_pos bound names
    have few := pipeNamedBy_le s (s.fdTable t) maxFilesOpenPerProc page
    have word := bumped.word page
    have low : openCntsOf (s.ioqueue page) < 256 ^ 8 := wordAt_lt 8 _ _
    rw [same] at word
    simp only [maxFilesOpenPerProc] at few word count
    omega
  · intro none
    have same : after.ioqueue = s.ioqueue := by
      funext page
      apply bumped.quiet
      apply Finset.sum_eq_zero
      intro fd member
      exact if_neg (none fd (Finset.mem_range.mp member) page)
    exact ⟨s.tasks, after, ran, same, fun page count => by rw [same]⟩

def pipedApart : List (Tid × FileOp) := [(1, .pipe), (2, .open [47, 116])]

theorem clone_keeps_pipes_apart : ∃ s, run Files.step (Files.start deviceFs 3) pipedApart = .ok s ∧
    (s.fileTable 0).fType = .fifo ∧ ClonesQuietly s 2 := by
  have evaluated : endsIn (run Files.step (Files.start deviceFs 3) pipedApart) (fun s =>
      decide ((∀ fd < maxFilesOpenPerProc, s.fdTable 2 fd = -1 ∨ s.fdTable 2 fd = 1) ∧
        (s.fileTable 0).fType = .fifo ∧ s.fileTable 1 = { fPos := 1, fInode := some .console, fType := .chr })) = true := by
    decide +kernel
  obtain ⟨s, ran, check⟩ := exists_of_endsIn evaluated
  obtain ⟨fds, fifo, device⟩ := of_decide_eq_true check
  have fit : FdsFit s 2 := by
    intro fd bound
    rcases fds fd bound with unused | entry
    · exact .inl unused
    · exact .inr ⟨1, by decide, entry, .console, by rw [device], by rw [device]; rfl⟩
  refine ⟨s, ran, fifo, (clone_keeps_pipes_iff s 2 fit).mpr ?_⟩
  intro fd bound page names
  rcases fds fd bound with unused | entry
  · have low := names.1
    omega
  · have type := names.2.1
    have slot : (s.fdTable 2 fd).toNat = 1 := by omega
    rw [slot, device] at type
    cases type

/-- 64 bytes lie in the pipe when its task is cloned: the one at 56 is another one after that. -/
theorem clone_alters_pipe : ∃ s after, sysWrite piped 2 1 (fun _ => 7) 64 = .ok (64, s) ∧
    sysClone s 2 = .ok (3, after) ∧ (ioqBytes (s.ioqueue 0))[56]? = some 7 ∧
    (ioqBytes (after.ioqueue 0))[56]? = some 9 ∧ ¬ ClonesQuietly s 2 := by
  have evaluated : endsIn (sysWrite piped 2 1 (fun _ => 7) 64) (fun wrote =>
      decide (wrote.1 = 64 ∧ (ioqBytes (wrote.2.ioqueue 0))[56]? = some 7) &&
      endsIn (sysClone wrote.2 2) (fun cloned =>
        decide (cloned.1 = 3 ∧ (ioqBytes (cloned.2.ioqueue 0))[56]? = some 9))) = true := by
    decide +kernel
  obtain ⟨⟨written, s⟩, wrote, rest⟩ := exists_of_endsIn evaluated
  rw [Bool.and_eq_true] at rest
  obtain ⟨rfl, before⟩ := of_decide_eq_true rest.1
  obtain ⟨⟨child, after⟩, cloned, check⟩ := exists_of_endsIn rest.2
  obtain ⟨rfl, altered⟩ := of_decide_eq_true check
  refine ⟨s, after, wrote, cloned, before, altered, ?_⟩
  intro quiet
  obtain ⟨child, other, ran, same, _⟩ := quiet
  rw [cloned] at ran
  cases ran
  rw [same] at altered
  exact absurd (before.symm.trans altered) (by decide)

/-- No slot refers to the queue of a pipe whose page has been freed. -/
def NoFreedQueue (s : Files) : Prop :=
  ∀ i < fileTableSize, ∀ page, (s.fileTable i).fInode = some (.ioqueue page) → page ∈ s.livePages

structure PipeMade (s after : Files) (t : Tid) (i fd0 fd1 : Nat) : Prop where
  slot : i < fileTableSize ∧ (s.fileTable i).fInode = none
  first : fd0 < maxFilesOpenPerProc ∧ s.fdTable t fd0 = -1 ∧ after.fdTable t fd0 = (i : Int)
  second : fd1 < maxFilesOpenPerProc ∧ s.fdTable t fd1 = -1 ∧ after.fdTable t fd1 = (i : Int)
  differ : fd0 ≠ fd1
  file : ∃ page ∈ after.livePages, after.fileTable i = { fPos := 2, fInode := some (.ioqueue page), fType := .fifo }

/-- `sys_pipe` makes a pipe, or changes no descriptor, no slot and no page. -/
def PipesCleanly (s : Files) (t : Tid) : Prop :=
  let after := (sysPipe s t).2.2
  ((sysPipe s t).1 < 0 → after.fdTable = s.fdTable ∧ after.fileTable = s.fileTable ∧
    after.livePages = s.livePages ∧ NoFreedQueue after) ∧
  ((sysPipe s t).1 = 0 → ∃ i fd0 fd1, PipeMade s after t i fd0 fd1)

def PipeRoom (s : Files) (t : Tid) : Prop :=
  (∃ i < fileTableSize, (s.fileTable i).fInode = none) ∧
  ∃ fd0 < maxFilesOpenPerProc, ∃ fd1 < maxFilesOpenPerProc, fd0 ≠ fd1 ∧ s.fdTable t fd0 = -1 ∧ s.fdTable t fd1 = -1

theorem pipeSlot_file (s : Files) (i : Nat) :
    (pipeSlot s i).fileTable i = { fPos := 2, fInode := some (.ioqueue s.freshPage), fType := .fifo } := by
  rw [pipeSlot, Files.setFile_fileTable, if_pos rfl]

theorem pipeFds_spec (slot : i < fileTableSize ∧ (s.fileTable i).fInode = none) :
    let after := (pipeFds (pipeSlot s i) t i s.freshPage).2.2
    after.fileTable i = { fPos := 2, fInode := some (.ioqueue s.freshPage), fType := .fifo } ∧
    (((pipeFds (pipeSlot s i) t i s.freshPage).1 < 0 ∧ ¬ PipeRoom s t) ∨
      ((pipeFds (pipeSlot s i) t i s.freshPage).1 = 0 ∧ PipeRoom s t ∧ ∃ fd0 fd1, PipeMade s after t i fd0 fd1)) := by
  have negative : -(maxFilesOpenPerProc : Int) < 0 := by decide
  rw [pipeFds]
  dsimp only
  by_cases none : freeFdAlloc (pipeSlot s i) t = maxFilesOpenPerProc
  · rw [if_pos none]
    refine ⟨pipeSlot_file s i, .inl ⟨negative, ?_⟩⟩
    intro room
    obtain ⟨_, fd0, inside, _, _, _, free, _⟩ := room
    exact freeFdAlloc_full none inside free
  · rw [if_neg none]
    have first := freeFdAlloc_spec (pipeSlot s i) t none
    generalize freeFdAlloc (pipeSlot s i) t = fd0 at first
    have table : ∀ gd, gd ≠ fd0 →
        ((pipeSlot s i).setFd t fd0 i (some (.ioqueue s.freshPage))).fdTable t gd = s.fdTable t gd := by
      intro gd other
      rw [Files.setFd_fdTable, if_neg (fun both => other both.2)]
      rfl
    by_cases one : freeFdAlloc ((pipeSlot s i).setFd t fd0 i (some (.ioqueue s.freshPage))) t = maxFilesOpenPerProc
    · rw [if_pos one]
      refine ⟨pipeSlot_file s i, .inl ⟨negative, ?_⟩⟩
      intro room
      obtain ⟨_, gd0, inside0, gd1, inside1, differ, free0, free1⟩ := room
      by_cases here : gd0 = fd0
      · have used := freeFdAlloc_full one inside1
        rw [table gd1 (fun same => differ (here.trans same.symm))] at used
        exact used free1
      · have used := freeFdAlloc_full one inside0
        rw [table gd0 here] at used
        exact used free0
    · rw [if_neg one]
      have second := freeFdAlloc_spec _ t one
      generalize freeFdAlloc ((pipeSlot s i).setFd t fd0 i (some (.ioqueue s.freshPage))) t = fd1 at second
      have differ : fd0 ≠ fd1 := by
        intro same
        rw [← same, Files.setFd_fdTable, if_pos ⟨rfl, rfl⟩] at second
        omega
      rw [table fd1 differ.symm] at second
      have entry0 : (((pipeSlot s i).setFd t fd0 i (some (.ioqueue s.freshPage))).setFd t fd1 i
          (some (.ioqueue s.freshPage))).fdTable t fd0 = i := by
        rw [Files.setFd_fdTable, if_neg (fun both => differ both.2), Files.setFd_fdTable, if_pos ⟨rfl, rfl⟩]
      have entry1 : (((pipeSlot s i).setFd t fd0 i (some (.ioqueue s.freshPage))).setFd t fd1 i
          (some (.ioqueue s.freshPage))).fdTable t fd1 = i := by
        rw [Files.setFd_fdTable, if_pos ⟨rfl, rfl⟩]
      refine ⟨pipeSlot_file s i, .inr ⟨rfl, ⟨⟨i, slot⟩, fd0, first.1, fd1, second.1, differ, first.2, second.2⟩,
        fd0, fd1, ?_⟩⟩
      exact ⟨slot, ⟨first.1, first.2, entry0⟩, ⟨second.1, second.2, entry1⟩, differ,
        s.freshPage, List.mem_cons_self .., pipeSlot_file s i⟩

/-- Each of the three ways to fail leaves something behind: a page, or a slot with a freed page. -/
theorem pipe_fails_cleanly_iff (s : Files) (t : Tid) : PipesCleanly s t ↔ PipeRoom s t := by
  rcases sysPipe_eq s t with ⟨full, ran⟩ | ⟨i, slot, ran⟩
  · have negative : -(fileTableSize : Int) < 0 := by decide
    constructor
    · intro ⟨fails, _⟩
      rw [ran] at fails
      have pages : s.freshPage :: s.livePages = s.livePages := (fails negative).2.2.1
      exact absurd pages (List.cons_ne_self _ _)
    · intro ⟨⟨i, bound, free⟩, _⟩
      exact absurd free (full i bound)
  · have spec := @pipeFds_spec s t i slot
    rw [← ran] at spec
    obtain ⟨file, ⟨negative, noRoom⟩ | ⟨zero, room, fd0, fd1, made⟩⟩ := spec
    · constructor
      · intro ⟨fails, _⟩
        have free := slot.2
        rw [← (fails negative).2.1, file] at free
        cases free
      · intro room
        exact absurd room noRoom
    · constructor
      · intro _
        exact room
      · intro _
        exact ⟨fun negative => absurd zero (Int.ne_of_lt negative), fun _ => ⟨i, fd0, fd1, made⟩⟩

def nearlyFull : List (Tid × FileOp) :=
  (2, .open [47, 116]) :: (List.range 30).map fun fd => (2, .dup2 (fd + 1) 0)

/-- `sys_pipe` finds one descriptor only, and leaves a slot with the page it has freed. -/
theorem pipe_leaves_freed_page : ∃ s, run Files.step (Files.start deviceFs 3) nearlyFull = .ok s ∧
    (sysPipe s 2).1 = -32 ∧ ((sysPipe s 2).2.2.fileTable 1).fInode = some (.ioqueue 0) ∧
    (sysPipe s 2).2.2.livePages = [] ∧ ¬ PipesCleanly s 2 := by
  have evaluated : endsIn (run Files.step (Files.start deviceFs 3) nearlyFull) (fun s =>
      decide ((sysPipe s 2).1 = -32 ∧ ((sysPipe s 2).2.2.fileTable 1).fInode = some (.ioqueue 0) ∧
        (sysPipe s 2).2.2.livePages = [])) = true := by
    decide +kernel
  obtain ⟨s, ran, check⟩ := exists_of_endsIn evaluated
  obtain ⟨result, slot, pages⟩ := of_decide_eq_true check
  refine ⟨s, ran, result, slot, pages, ?_⟩
  intro ⟨fails, _⟩
  have freed := (fails (by rw [result]; decide)).2.2.2 1 (by decide) 0 slot
  rw [pages] at freed
  cases freed

end RecoverOs.Fs
