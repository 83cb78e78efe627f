import RecoverOs.Fs.Contents
import RecoverOs.Fs.Descriptors
import RecoverOs.Fs.Format
import RecoverOs.Userprog.Exec

namespace RecoverOs.Userprog

open Bytes Memory Transition
open Fs (Files Ptr blockSize sysOpen sysLseek sysRead sysClose fdEntry fdRejected)

variable {s after : Files} {t : Nat} {fd : Int} {p : Ptr} {r : Reader} {count : Nat}

structure Opened (s : Files) (t : Nat) (fd : Int) (p : Ptr) (r : Reader) : Prop where
  accepted : fdRejected s t fd = false
  kind : (s.fileTable (fdEntry s t fd).toNat).fType = .reg ∨ (s.fileTable (fdEntry s t fd).toNat).fType = .dir
  inode : (s.fileTable (fdEntry s t fd).toNat).fInode = some (.inode p)
  pos : (s.fileTable (fdEntry s t fd).toNat).fPos = (r.pos : Int)
  size : (s.fs.inode p).diskInode.fileSize = r.size
  byte : ∀ k, r.byte k = s.fs.disk ((s.fs.inode p).diskInode.direct (k / blockSize)) (k % blockSize)

theorem toSigned_position (size offset : Nat) :
    (toSigned offset < 0 ∨ (size : Int) < toSigned offset) ↔ ¬ (wrap offset < 2 ^ 63 ∧ wrap offset ≤ size) := by
  have small : wrap offset < 2 ^ 64 := Nat.mod_lt _ (by decide)
  simp only [toSigned]
  split <;> omega

theorem Opened.move (opened : Opened s t fd p r) (pos : Nat) :
    Opened (s.setFile (fdEntry s t fd).toNat fun file => { file with fPos := pos }) t fd p { r with pos := pos } := by
  have entry : ∀ f, fdEntry (s.setFile (fdEntry s t fd).toNat f) t fd = fdEntry s t fd := fun _ => rfl
  constructor
  case accepted => exact opened.accepted
  case kind =>
    rw [entry, Fs.Files.setFile_fileTable, if_pos rfl]
    exact opened.kind
  case inode =>
    rw [entry, Fs.Files.setFile_fileTable, if_pos rfl]
    exact opened.inode
  case pos => rw [entry, Fs.Files.setFile_fileTable, if_pos rfl]
  case size => exact opened.size
  case byte => exact opened.byte

theorem Opened.relock (opened : Opened s t fd p r) (fs : Fs.State) (disk : fs.disk = s.fs.disk)
    (inode : (fs.inode p).diskInode = (s.fs.inode p).diskInode) : Opened { s with fs := fs } t fd p r := by
  refine ⟨opened.accepted, opened.kind, opened.inode, opened.pos, ?_, ?_⟩
  · show (fs.inode p).diskInode.fileSize = r.size
    rw [inode, opened.size]
  · intro k
    show r.byte k = fs.disk ((fs.inode p).diskInode.direct (k / blockSize)) (k % blockSize)
    rw [disk, inode, opened.byte]

theorem Opened.seek {n : Int} {offset : Nat} (opened : Opened s t fd p r)
    (ran : sysLseek s t fd (toSigned offset) .seekSet = .ok (n, after)) :
    Opened after t fd p (r.seek offset) ∧ after.fdTable = s.fdTable := by
  have call : sysLseek s t fd (toSigned offset) .seekSet =
      if toSigned offset < 0 ∨ (r.size : Int) < toSigned offset then .ok (-1, s)
      else .ok (toSigned offset, s.setFile (fdEntry s t fd).toNat fun file => { file with fPos := toSigned offset }) := by
    rcases opened.kind with kind | kind
    · simp only [sysLseek, opened.accepted, Bool.false_eq_true, if_false, kind, opened.inode, opened.size]
    · simp only [sysLseek, opened.accepted, Bool.false_eq_true, if_false, kind, opened.inode, opened.size]
  rw [call] at ran
  by_cases inside : wrap offset < 2 ^ 63 ∧ wrap offset ≤ r.size
  · have position : toSigned offset = (wrap offset : Int) := by rw [toSigned, if_pos inside.1]
    rw [if_neg ((toSigned_position r.size offset).not.mpr (not_not.mpr inside)), position] at ran
    cases ran
    rw [Reader.seek, if_pos inside]
    exact ⟨opened.move _, rfl⟩
  · rw [if_pos ((toSigned_position r.size offset).mpr inside)] at ran
    cases ran
    rw [Reader.seek, if_neg inside]
    exact ⟨opened, rfl⟩

theorem Opened.read {nbyte : Int} {data : List UInt8} (opened : Opened s t fd p r)
    (ran : readFile s t fd count = .ok (nbyte, data, after)) :
    nbyte = r.nbyte count ∧ data = (List.range (r.nbyte count)).map r.data ∧ Opened after t fd p (r.skip count) ∧
      after.fdTable = s.fdTable := by
  have other : ¬ (s.fileTable (fdEntry s t fd).toNat).fType = .chr := by
    rcases opened.kind with kind | kind
    · rw [kind]
      decide
    · rw [kind]
      decide
  have call : sysRead s t fd count = (do
      let fs ← Fs.semaDown s.fs p
      let read ← Fs.inodeRead fs p count r.pos
      let fs ← Fs.semaUp fs p
      let s := { s with fs := fs }
      return ((read.1 : Int), (List.range read.1).map read.2,
        if 0 < read.1 then s.setFile (fdEntry s t fd).toNat fun file => { file with fPos := file.fPos + read.1 }
        else s)) := by
    rcases opened.kind with kind | kind
    · simp only [sysRead, opened.accepted, Bool.false_eq_true, if_false, kind, opened.inode, opened.pos, Int.toNat_natCast]
      rfl
    · simp only [sysRead, opened.accepted, Bool.false_eq_true, if_false, kind, opened.inode, opened.pos, Int.toNat_natCast]
      rfl
  rw [readFile, if_neg other, call] at ran
  simp only [bind_ok, pure_ok, Prod.exists, Prod.mk.injEq] at ran
  obtain ⟨locked, down, read, buf, inside, raised, up, rfl, rfl, rfl⟩ := ran
  obtain ⟨_, rfl⟩ := Fs.semaDown_ok.mp down
  obtain ⟨_, rfl⟩ := Fs.semaUp_ok.mp up
  obtain ⟨length, bytes⟩ := Fs.inodeRead_bytes inside
  simp only [Fs.State.setInode_inode, if_pos] at length bytes
  rw [opened.size] at length
  have count' : read = r.nbyte count := length
  subst count'
  have relocked := opened.relock
    ((s.fs.setInode p fun inode => { inode with inodeLock := 0 }).setInode p fun inode => { inode with inodeLock := 1 })
    rfl (by simp only [Fs.State.setInode_inode, if_pos])
  refine ⟨rfl, ?_, ?_, ?_⟩
  · apply List.map_congr_left
    intro k member
    rw [bytes k (List.mem_range.mp member), Reader.data, opened.byte]
    rfl
  · rw [Reader.skip]
    split
    · have moved := relocked.move (r.pos + r.nbyte count)
      simp only [Files.setFile, Nat.cast_add, ← opened.pos] at moved
      exact moved
    · rename_i none
      rw [show r.pos + r.nbyte count = r.pos by omega]
      exact relocked
  · split
    · rfl
    · rfl

theorem bytesOf_map {n i : Nat} (f : Nat → UInt8) (inside : i < n) : bytesOf ((List.range n).map f) i = f i := by
  simp [bytesOf, inside]

theorem storeBytes_congr {s : Machine} {vaddr cnt : Nat} {data data' : Buffer} (same : ∀ i < cnt, data i = data' i) :
    storeBytes s t vaddr data cnt = storeBytes s t vaddr data' cnt := by
  induction cnt with
  | zero => rfl
  | succ cnt ih => rw [storeBytes, storeBytes, ih fun i less => same i (Nat.lt_succ_of_lt less), same cnt (Nat.lt_succ_self cnt)]

theorem Opened.load {s after : System} {phdr : Phdr} (opened : Opened s.files t fd p r)
    (ran : segmentLoad s t fd phdr = .ok after) :
    Memory.segmentLoad s.machine t (r.segment phdr) = .ok after.machine ∧
      Opened after.files t fd p ((r.seek phdr.offset).skip phdr.memsz) ∧ after.files.fdTable = s.files.fdTable := by
  simp only [segmentLoad, bind_ok, Prod.exists] at ran
  obtain ⟨ram, map, n, sought, lseek, nbyte, data, files, read, ran⟩ := ran
  obtain ⟨there, table⟩ := opened.seek lseek
  obtain ⟨_, rfl, moved, table'⟩ := there.read read
  split at ran
  · cases ran
  · simp only [bind_ok, pure_ok] at ran
    obtain ⟨machine, store, rfl⟩ := ran
    refine ⟨?_, moved, table'.trans table⟩
    rw [List.length_map, List.length_range] at store
    rw [Memory.segmentLoad, bind_ok]
    refine ⟨ram, map, ?_⟩
    rw [← store]
    exact (storeBytes_congr fun i less => bytesOf_map _ less).symm

theorem lift_ok {α : Type} {x : Except Halt α} {a : α} : lift x = .ok a ↔ x = .ok a := by
  cases x with
  | error halt => simp [lift, Except.mapError]
  | ok b => simp [lift, Except.mapError]

theorem lift_overrun {α : Type} {x : Except Halt α} {k : Nat} : ¬ lift x = .error (.overrun k) := by
  cases x with
  | error halt => simp [lift, Except.mapError]
  | ok a => simp [lift, Except.mapError]

def Reader.entry (r : Reader) (ehdr : Ehdr) (progIdx : Nat) : Reader :=
  r.seek (ehdr.phoff + progIdx * ehdr.phentsize)

def Reader.header (r : Reader) (ehdr : Ehdr) (progIdx : Nat) : Phdr := Phdr.load (r.entry ehdr progIdx).data

def Reader.next (r : Reader) (ehdr : Ehdr) (progIdx : Nat) : Reader := (r.entry ehdr progIdx).skip ehdr.phentsize

inductive Turn (t : Nat) (fd : Int) (p : Ptr) (r : Reader) (ehdr : Ehdr) (left progIdx loadIdx : Nat) (s : System) : Prop
  | halt (halt : Halt) (ends : elfLoop t fd ehdr (left + 1) progIdx loadIdx s = .error (.halt halt))
  | short (few : (r.entry ehdr progIdx).nbyte ehdr.phentsize ≠ ehdr.phentsize) (files : Files)
      (table : files.fdTable = s.files.fdTable)
      (ends : elfLoop t fd ehdr (left + 1) progIdx loadIdx s =
        .ok (-(phdrSize : Int), loadIdx, { s with files := files }))
  | skip (whole : (r.entry ehdr progIdx).nbyte ehdr.phentsize = ehdr.phentsize)
      (other : (r.header ehdr progIdx).type ≠ ptLoad) (files : Files) (opened : Opened files t fd p (r.next ehdr progIdx))
      (table : files.fdTable = s.files.fdTable)
      (goes : elfLoop t fd ehdr (left + 1) progIdx loadIdx s =
        elfLoop t fd ehdr left (progIdx + 1) loadIdx { s with files := files })
  | load (whole : (r.entry ehdr progIdx).nbyte ehdr.phentsize = ehdr.phentsize)
      (isLoad : (r.header ehdr progIdx).type = ptLoad) (loaded : System)
      (segment : Memory.segmentLoad s.machine t ((r.next ehdr progIdx).segment (r.header ehdr progIdx)) =
        .ok loaded.machine)
      (opened : Opened loaded.files t fd p (((r.next ehdr progIdx).seek (r.header ehdr progIdx).offset).skip
        (r.header ehdr progIdx).memsz))
      (table : loaded.files.fdTable = s.files.fdTable)
      (goes : elfLoop t fd ehdr (left + 1) progIdx loadIdx s = if 4 ≤ loadIdx then .error (.overrun loadIdx)
        else elfLoop t fd ehdr left (progIdx + 1) (loadIdx + 1) (recordHeader loaded t loadIdx (r.header ehdr progIdx)))

theorem lift_cases {α : Type} (x : Except Halt α) : (∃ halt, lift x = .error (.halt halt)) ∨ ∃ a, x = .ok a := by
  cases x with
  | error halt => exact .inl ⟨halt, rfl⟩
  | ok a => exact .inr ⟨a, rfl⟩

theorem elfLoop_read {s : System} {ehdr : Ehdr} {progIdx : Nat} (left loadIdx : Nat) {n nbyte : Int} {sought files : Files}
    {data : List UInt8}
    (lseek : sysLseek s.files t fd (toSigned (ehdr.phoff + progIdx * ehdr.phentsize)) .seekSet = .ok (n, sought))
    (read : readFile sought t fd ehdr.phentsize = .ok (nbyte, data, files)) :
    elfLoop t fd ehdr (left + 1) progIdx loadIdx s =
      if nbyte ≠ ehdr.phentsize then .ok (-(phdrSize : Int), loadIdx, { s with files := files })
      else if (Phdr.load (bytesOf data)).type = ptLoad then (do
        let loaded ← lift (segmentLoad { s with files := files } t fd (Phdr.load (bytesOf data)))
        if 4 ≤ loadIdx then .error (.overrun loadIdx)
        else elfLoop t fd ehdr left (progIdx + 1) (loadIdx + 1) (recordHeader loaded t loadIdx (Phdr.load (bytesOf data))))
      else elfLoop t fd ehdr left (progIdx + 1) loadIdx { s with files := files } := by
  have found : ∀ {α : Type} (a : α), lift (.ok a) = .ok a := fun _ => rfl
  rw [elfLoop, lseek]
  simp only [found, ok_bind, read, pure, Except.pure]

theorem Opened.turn {s : System} {ehdr : Ehdr} (left progIdx loadIdx : Nat) (opened : Opened s.files t fd p r)
    (entries : ehdr.phentsize = phdrSize) : Turn t fd p r ehdr left progIdx loadIdx s := by
  rcases lift_cases (sysLseek s.files t fd (toSigned (ehdr.phoff + progIdx * ehdr.phentsize)) .seekSet) with
    ⟨halt, failed⟩ | ⟨⟨n, sought⟩, lseek⟩
  · apply Turn.halt halt
    rw [elfLoop, failed]
    rfl
  rcases lift_cases (readFile sought t fd ehdr.phentsize) with ⟨halt, failed⟩ | ⟨⟨nbyte, data, files⟩, read⟩
  · apply Turn.halt halt
    have found : lift (Except.ok (n, sought)) = .ok (n, sought) := rfl
    rw [elfLoop, lseek, found, ok_bind]
    dsimp only
    rw [failed]
    rfl
  obtain ⟨there, table⟩ := opened.seek lseek
  obtain ⟨count, rfl, moved, table'⟩ := there.read read
  have tables : files.fdTable = s.files.fdTable := table'.trans table
  have goes := elfLoop_read left loadIdx lseek read
  rw [count] at goes
  by_cases whole : (r.entry ehdr progIdx).nbyte ehdr.phentsize = ehdr.phentsize
  · have header : Phdr.load (bytesOf ((List.range ((r.entry ehdr progIdx).nbyte ehdr.phentsize)).map
        (r.entry ehdr progIdx).data)) = r.header ehdr progIdx :=
      Phdr.load_congr fun i less => bytesOf_map _ (by rw [whole, entries]; exact less)
    rw [Reader.entry] at header whole
    rw [header, if_neg (by rw [whole]; simp)] at goes
    by_cases isLoad : (r.header ehdr progIdx).type = ptLoad
    · rw [if_pos isLoad] at goes
      rcases lift_cases (segmentLoad { s with files := files } t fd (r.header ehdr progIdx)) with
        ⟨halt, failed⟩ | ⟨loaded, load⟩
      · rw [failed] at goes
        exact .halt halt goes
      · obtain ⟨segment, there', table''⟩ := Opened.load moved load
        rw [load] at goes
        exact .load whole isLoad loaded segment there' (table''.trans tables) goes
    · rw [if_neg isLoad] at goes
      exact .skip whole isLoad files moved tables goes
  · rw [if_pos (by exact_mod_cast whole)] at goes
    exact .short whole files tables goes

theorem readHeaders_succ (ehdr : Ehdr) (left progIdx : Nat) (r : Reader) : readHeaders ehdr (left + 1) progIdx r =
    if (r.entry ehdr progIdx).nbyte ehdr.phentsize ≠ ehdr.phentsize then ([], false)
    else if (r.header ehdr progIdx).type = ptLoad then
      (⟨r.header ehdr progIdx, (r.next ehdr progIdx).segment (r.header ehdr progIdx)⟩ ::
        (readHeaders ehdr left (progIdx + 1) (((r.next ehdr progIdx).seek (r.header ehdr progIdx).offset).skip
          (r.header ehdr progIdx).memsz)).1,
        (readHeaders ehdr left (progIdx + 1) (((r.next ehdr progIdx).seek (r.header ehdr progIdx).offset).skip
          (r.header ehdr progIdx).memsz)).2)
    else readHeaders ehdr left (progIdx + 1) (r.next ehdr progIdx) := rfl

theorem Opened.loop {s after : System} {ehdr : Ehdr} {left progIdx loadIdx last : Nat} {ret : Int}
    (opened : Opened s.files t fd p r) (entries : ehdr.phentsize = phdrSize)
    (ran : elfLoop t fd ehdr left progIdx loadIdx s = .ok (ret, last, after)) :
    loadSegments s.machine t loadIdx ((readHeaders ehdr left progIdx r).1.map Load.segment) = .ok after.machine ∧
      (ret = if (readHeaders ehdr left progIdx r).2 then 0 else -(phdrSize : Int)) ∧
      last = loadIdx + (readHeaders ehdr left progIdx r).1.length ∧ after.files.fdTable = s.files.fdTable := by
  induction left generalizing s progIdx loadIdx r with
  | zero =>
    cases ran
    exact ⟨rfl, rfl, rfl, rfl⟩
  | succ left ih =>
    rw [readHeaders_succ]
    cases opened.turn left progIdx loadIdx entries with
    | halt halt ends =>
      rw [ends] at ran
      cases ran
    | short few files table ends =>
      rw [ends] at ran
      cases ran
      rw [if_pos few]
      exact ⟨rfl, rfl, rfl, table⟩
    | skip whole other files there table goes =>
      rw [goes] at ran
      rw [if_neg (not_not.mpr whole), if_neg other]
      obtain ⟨rest, ends, length, kept⟩ := ih (s := { s with files := files }) there ran
      exact ⟨rest, ends, length, kept.trans table⟩
    | load whole isLoad loaded segment there table goes =>
      rw [goes] at ran
      rw [if_neg (not_not.mpr whole), if_pos isLoad]
      split at ran
      · cases ran
      · rename_i few
        obtain ⟨rest, ends, length, kept⟩ := ih (s := recordHeader loaded t loadIdx _) there ran
        refine ⟨?_, ends, ?_, kept.trans table⟩
        · rw [List.map_cons, loadSegments, bind_ok]
          refine ⟨loaded.machine, segment, ?_⟩
          rw [if_neg few]
          exact rest
        · rw [length, List.length_cons]
          omega

/-- A header that is written past the arrays is at least the fifth. -/
theorem Opened.overrun {s : System} {ehdr : Ehdr} {left progIdx loadIdx k : Nat} (opened : Opened s.files t fd p r)
    (entries : ehdr.phentsize = phdrSize) (ran : elfLoop t fd ehdr left progIdx loadIdx s = .error (.overrun k)) :
    4 < loadIdx + (readHeaders ehdr left progIdx r).1.length := by
  induction left generalizing s progIdx loadIdx r with
  | zero => cases ran
  | succ left ih =>
    rw [readHeaders_succ]
    cases opened.turn left progIdx loadIdx entries with
    | halt halt ends =>
      rw [ends] at ran
      cases ran
    | short few files table ends =>
      rw [ends] at ran
      cases ran
    | skip whole other files there table goes =>
      rw [goes] at ran
      rw [if_neg (not_not.mpr whole), if_neg other]
      exact ih (s := { s with files := files }) there ran
    | load whole isLoad loaded segment there table goes =>
      rw [goes] at ran
      rw [if_neg (not_not.mpr whole), if_pos isLoad, List.length_cons]
      split at ran
      · omega
      · have more := ih (s := recordHeader loaded t loadIdx _) there ran
        omega

def openedReader (s : Files) (t : Nat) (fd : Int) : Option Reader :=
  let file := s.fileTable (fdEntry s t fd).toNat
  match file.fType, file.fInode with
  | .reg, some (.inode p) | .dir, some (.inode p) =>
    let diskInode := (s.fs.inode p).diskInode
    some {
      size := diskInode.fileSize
      byte := fun k => s.fs.disk (diskInode.direct (k / blockSize)) (k % blockSize)
      pos := file.fPos.toNat }
  | _, _ => none

def execReader (s : Files) (t : Nat) (pathname : List UInt8) : Option Reader :=
  match sysOpen s t pathname with
  | .ok (fd, opened) => if fd < 0 then none else openedReader opened t fd
  | .error _ => none

def execImage (s : Files) (t : Nat) (pathname : List UInt8) : Image :=
  match execReader s t pathname with
  | some r => r.image
  | none => ⟨[], false⟩

theorem openedReader_opened (accepted : fdRejected s t fd = false)
    (start : 0 ≤ (s.fileTable (fdEntry s t fd).toNat).fPos) (reads : openedReader s t fd = some r) :
    ∃ p, Opened s t fd p r := by
  unfold openedReader at reads
  dsimp only at reads
  split at reads
  · rename_i p kind inode
    cases reads
    exact ⟨p, accepted, .inl kind, inode, (Int.toNat_of_nonneg start).symm, rfl, fun _ => rfl⟩
  · rename_i p kind inode
    cases reads
    exact ⟨p, accepted, .inr kind, inode, (Int.toNat_of_nonneg start).symm, rfl, fun _ => rfl⟩
  · cases reads

structure Given (s : Files) (t : Nat) (fd : Int) (after : Files) : Prop where
  inside : 0 ≤ fd ∧ fd < Fs.maxFilesOpenPerProc
  free : s.fdTable t fd.toNat = -1
  table : after.fdTable = Function.update s.fdTable t (Function.update (s.fdTable t) fd.toNat (fdEntry after t fd))
  slot : 0 ≤ fdEntry after t fd ∧ fdEntry after t fd < Fs.fileTableSize
  start : 0 ≤ (after.fileTable (fdEntry after t fd).toNat).fPos
  object : ∀ page, (after.fileTable (fdEntry after t fd).toNat).fInode ≠ some (.ioqueue page)

theorem openObject_noPipe {fs opened : Fs.State} {de : Fs.Dirent} {object : Option Fs.Object} (page : Nat)
    (ran : Fs.openObject fs de = .ok (object, opened)) : object ≠ some (.ioqueue page) := by
  unfold Fs.openObject at ran
  split at ran
  · cases ran
    simp
  · simp only [bind_ok, pure_ok, Prod.exists, Prod.mk.injEq] at ran
    obtain ⟨found, _, _, rfl, _⟩ := ran
    cases found with
    | none => simp
    | some p => simp

theorem given_slot {fs : Fs.State} {gd i : Nat} (file : Fs.File) (inside : gd < Fs.maxFilesOpenPerProc)
    (free : s.fdTable t gd = -1) (bound : i < Fs.fileTableSize) (start : 0 ≤ file.fPos)
    (object : ∀ page, file.fInode ≠ some (.ioqueue page)) :
    Given s t gd (({ s with fs := fs }.setFile i fun _ => file).setFd t gd i file.fInode) := by
  have entry : fdEntry (({ s with fs := fs }.setFile i fun _ => file).setFd t gd i file.fInode) t gd = i := by
    have small : (gd : Int) < (Fs.maxFilesOpenPerProc : Nat) := by exact_mod_cast inside
    rw [fdEntry, if_pos ⟨Int.natCast_nonneg gd, small⟩]
    simp
  have slot : (({ s with fs := fs }.setFile i fun _ => file).setFd t gd i file.fInode).fileTable i = file := by
    show ({ s with fs := fs }.setFile i fun _ => file).fileTable i = file
    rw [Fs.Files.setFile_fileTable, if_pos rfl]
  constructor
  case inside => exact ⟨Int.natCast_nonneg gd, by exact_mod_cast inside⟩
  case free => exact free
  case table =>
    rw [entry]
    rfl
  case slot =>
    rw [entry]
    exact ⟨Int.natCast_nonneg i, by exact_mod_cast bound⟩
  case start =>
    rw [entry, Int.toNat_natCast, slot]
    exact start
  case object =>
    rw [entry, Int.toNat_natCast, slot]
    exact object

theorem sysOpen_given {pathname : List UInt8} (ran : sysOpen s t pathname = .ok (fd, after)) :
    (fd < 0 ∧ after.fdTable = s.fdTable) ∨ (0 ≤ fd ∧ Given s t fd after) := by
  simp only [sysOpen, bind_ok, Prod.exists] at ran
  obtain ⟨pINo, de, resolved, resolve, ran⟩ := ran
  split at ran
  · cases ran
    exact .inl ⟨by decide, rfl⟩
  split at ran
  · rename_i full
    cases ran
    rw [full]
    exact .inl ⟨by decide, rfl⟩
  rename_i spare
  have spec := Fs.freeFdAlloc_spec { s with fs := resolved } t spare
  simp only [bind_ok, Prod.exists] at ran
  obtain ⟨object, opened, fits, ran⟩ := ran
  rcases slots : Fs.getFreeSlot { s with fs := opened } object de.fType with ⟨i, slotted⟩
  rw [slots] at ran
  dsimp only at ran
  rcases Fs.getFreeSlot_cases slots with ⟨rfl, rfl, _⟩ | ⟨bound, _, rfl⟩
  · rw [if_pos rfl] at ran
    cases ran
    refine .inl ⟨by decide, ?_⟩
    split
    · rfl
    · rfl
  rw [if_neg (Nat.ne_of_lt bound)] at ran
  have noPipe : ∀ page, object ≠ some (Fs.Object.ioqueue page) := fun page => openObject_noPipe page fits
  by_cases chr : de.fType = .chr
  · rw [if_pos chr] at ran
    simp only [Files.setFile, Function.update_self, Function.update_idem] at ran
    cases ran
    exact .inr ⟨Int.natCast_nonneg _, given_slot ⟨1, object, de.fType⟩ spec.1 spec.2 bound (by simp) noPipe⟩
  · rw [if_neg chr] at ran
    cases ran
    exact .inr ⟨Int.natCast_nonneg _, given_slot ⟨0, object, de.fType⟩ spec.1 spec.2 bound (by simp) noPipe⟩

def loadImage (s : Machine) (t : Nat) (image : Image) : Except Halt Machine := do
  let s ← loadSegments s t 0 image.segments
  return (if image.complete then s.setSpace t fun space => { space with heapEnd := space.heapStart } else s)

theorem Opened.body {s after : System} {ret : Int} (opened : Opened s.files t fd p r)
    (ran : elfBody s t fd = .ok (ret, after)) :
    loadImage s.machine t r.image = .ok after.machine ∧ after.files.fdTable = s.files.fdTable ∧
      (r.image.complete = true → ret = toSigned r.ehdr.entry) ∧ (r.image.complete = false → ret < 0) := by
  simp only [elfBody, bind_ok, lift_ok, Prod.exists] at ran
  obtain ⟨nbyte, data, files, read, ran⟩ := ran
  obtain ⟨count, rfl, moved, table⟩ := opened.read read
  by_cases header : r.HeaderAccepted
  · obtain ⟨whole, accepted⟩ := header
    have same : Ehdr.load (bytesOf ((List.range (r.nbyte ehdrSize)).map r.data)) = r.ehdr :=
      Ehdr.load_congr fun i less => bytesOf_map _ (by rw [whole]; exact less)
    rw [same, count, whole, if_neg (by simp [accepted])] at ran
    simp only [bind_ok, Prod.exists] at ran
    obtain ⟨result, last, parsed, loop, ran⟩ := ran
    obtain ⟨loads, ends, _, table'⟩ := Opened.loop (s := { s with files := files }) moved accepted.2.2.2.2 loop
    have image : r.image = ⟨(readHeaders r.ehdr r.ehdr.phnum 0 (r.skip ehdrSize)).1.map Load.segment,
        (readHeaders r.ehdr r.ehdr.phnum 0 (r.skip ehdrSize)).2⟩ := by
      rw [Reader.image, Reader.loads, if_pos ⟨whole, accepted⟩]
    rw [image]
    split at ran
    · rename_i failed
      cases ran
      have short : (readHeaders r.ehdr r.ehdr.phnum 0 (r.skip ehdrSize)).2 = false := by
        by_contra complete
        rw [ends, if_pos (by simpa using complete)] at failed
        exact absurd failed (Int.lt_irrefl 0)
      refine ⟨?_, table'.trans table, ?_, fun _ => failed⟩
      · rw [loadImage, bind_ok]
        refine ⟨_, loads, ?_⟩
        rw [short]
        rfl
      · intro complete
        rw [short] at complete
        cases complete
    · rename_i done
      simp only [bind_ok, pure_ok, Prod.mk.injEq] at ran
      obtain ⟨_, _, rfl, rfl⟩ := ran
      have complete : (readHeaders r.ehdr r.ehdr.phnum 0 (r.skip ehdrSize)).2 = true := by
        by_contra short
        rw [ends, if_neg short] at done
        exact done (by decide)
      refine ⟨?_, table'.trans table, fun _ => rfl, ?_⟩
      · rw [loadImage, bind_ok]
        refine ⟨_, loads, ?_⟩
        rw [complete]
        rfl
      · intro short
        rw [complete] at short
        cases short
  · have image : r.image = ⟨[], false⟩ := by
      rw [Reader.image, Reader.loads, if_neg header]
      rfl
    have refused : nbyte ≠ ehdrSize ∨ ¬ (Ehdr.load (bytesOf ((List.range (r.nbyte ehdrSize)).map r.data))).accepted := by
      rw [count]
      by_cases whole : r.nbyte ehdrSize = ehdrSize
      · have same : Ehdr.load (bytesOf ((List.range (r.nbyte ehdrSize)).map r.data)) = r.ehdr :=
          Ehdr.load_congr fun i less => bytesOf_map _ (by rw [whole]; exact less)
        rw [same]
        exact .inr fun accepted => header ⟨whole, accepted⟩
      · exact .inl (by exact_mod_cast whole)
    rw [if_pos refused] at ran
    cases ran
    rw [image]
    refine ⟨rfl, table, ?_, fun _ => by decide⟩
    intro complete
    cases complete

theorem Opened.body_overrun {s : System} {k : Nat} (opened : Opened s.files t fd p r)
    (ran : elfBody s t fd = .error (.overrun k)) : r.HeaderAccepted ∧ 4 < r.image.segments.length := by
  simp only [elfBody, bind_error, lift_overrun, false_or, lift_ok, Prod.exists] at ran
  obtain ⟨nbyte, data, files, read, ran⟩ := ran
  obtain ⟨count, rfl, moved, _⟩ := opened.read read
  split at ran
  · cases ran
  · rename_i passed
    rw [not_or, not_not, not_not] at passed
    have whole : r.nbyte ehdrSize = ehdrSize := by
      have equal := passed.1
      rw [count] at equal
      exact_mod_cast equal
    have same : Ehdr.load (bytesOf ((List.range (r.nbyte ehdrSize)).map r.data)) = r.ehdr :=
      Ehdr.load_congr fun i less => bytesOf_map _ (by rw [whole]; exact less)
    rw [same] at ran passed
    have accepted : r.HeaderAccepted := ⟨whole, passed.2⟩
    rcases bind_error.mp ran with loop | ⟨⟨ret, last, parsed⟩, _, ran⟩
    · have more := Opened.overrun (s := { s with files := files }) moved passed.2.2.2.2.2 loop
      rw [Nat.zero_add] at more
      refine ⟨accepted, ?_⟩
      rw [Reader.image, Reader.loads, if_pos accepted, List.length_map]
      exact more
    · dsimp only at ran
      split at ran
      · cases ran
      · simp only [bind_error, lift_overrun, false_or] at ran
        obtain ⟨_, _, ran⟩ := ran
        cases ran

theorem readFile_noFile {nbyte : Int} {data : List UInt8} (opened : openedReader s t fd = none)
    (object : ∀ page, (s.fileTable (fdEntry s t fd).toNat).fInode ≠ some (.ioqueue page))
    (accepted : fdRejected s t fd = false) (ran : readFile s t fd count = .ok (nbyte, data, after)) :
    nbyte = 0 ∧ after = s := by
  unfold readFile at ran
  split at ran
  · cases ran
  · rename_i other
    simp only [sysRead, accepted, Bool.false_eq_true, if_false] at ran
    split at ran
    · rename_i kind inode
      simp [openedReader, kind, inode] at opened
    · rename_i kind inode
      simp [openedReader, kind, inode] at opened
    · cases ran
    · cases ran
    · rename_i kind
      exact absurd kind other
    · rename_i inode
      exact absurd inode (object _)
    · cases ran
    · cases ran
      exact ⟨rfl, rfl⟩

theorem Given.accepted (given : Given s t fd after) : fdRejected after t fd = false := by
  obtain ⟨low, small⟩ := given.inside
  obtain ⟨used, slot⟩ := given.slot
  simp only [fdRejected, Bool.or_eq_false_iff, decide_eq_false_iff_not]
  omega

theorem dropSlot_fdTable {i : Nat} (ran : Fs.dropSlot s i = .ok after) : after.fdTable = s.fdTable := by
  unfold Fs.dropSlot at ran
  dsimp only at ran
  split at ran
  · cases ran
  · cases ran
    split
    · rfl
    · rfl
  · cases ran
    split
    · rfl
    · rfl
  · simp only [bind_ok, pure_ok] at ran
    obtain ⟨_, _, rfl⟩ := ran
    rfl
  · simp only [bind_ok, pure_ok] at ran
    obtain ⟨_, _, rfl⟩ := ran
    rfl
  · simp only [bind_ok, pure_ok] at ran
    obtain ⟨_, _, rfl⟩ := ran
    rfl
  · cases ran

theorem Given.closed {opened used closed : Files} {n : Int} (given : Given s t fd opened)
    (table : used.fdTable = opened.fdTable) (ran : sysClose used t fd = .ok (n, closed)) :
    closed.fdTable = s.fdTable := by
  have accepted : fdRejected used t fd = false := by
    have before := given.accepted
    simp only [fdRejected, fdEntry, table] at before ⊢
    exact before
  rcases Fs.sysClose_cases ran with ⟨rejected, _⟩ | ⟨gd, dropped, rfl, inside, _, drop, rfl⟩
  · rw [accepted] at rejected
    cases rejected
  · have kept : dropped.fdTable = used.fdTable := dropSlot_fdTable drop
    show Function.update dropped.fdTable t (Function.update (dropped.fdTable t) gd (-1)) = s.fdTable
    rw [kept, table, given.table]
    have free := given.free
    rw [Int.toNat_natCast] at free ⊢
    rw [Function.update_self, Function.update_idem, Function.update_idem, ← free, Function.update_eq_self,
      Function.update_eq_self]

theorem execReader_found {pathname : List UInt8} (opens : sysOpen s t pathname = .ok (fd, after)) (found : 0 ≤ fd) :
    execReader s t pathname = openedReader after t fd := by
  rw [execReader, opens]
  exact if_neg (Int.not_lt.mpr found)

/-- `sys_execv` does to the memory what the headers of its file ask for. -/
theorem sysExecv_image {s after : System} {pathname : List UInt8} {ret : Int}
    (ran : sysExecv s t pathname = .ok (ret, after)) :
    Memory.sysExecv s.machine t (execImage s.files t pathname) = .ok after.machine ∧
      after.files.fdTable = s.files.fdTable ∧ ((execImage s.files t pathname).complete = false → ret < 0) ∧
      ∀ r, execReader s.files t pathname = some r → r.image.complete = true → ret = toSigned r.ehdr.entry := by
  simp only [sysExecv, elfParse, bind_ok, lift_ok, Prod.exists] at ran
  obtain ⟨fd, opened, opens, ran⟩ := ran
  rcases sysOpen_given opens with ⟨failed, table⟩ | ⟨found, given⟩
  · rw [if_pos failed] at ran
    cases ran
    have none : execReader s.files t pathname = none := by
      rw [execReader, opens]
      exact if_pos failed
    rw [execImage, none]
    refine ⟨rfl, table, fun _ => failed, ?_⟩
    intro r reads
    cases reads
  · rw [if_neg (Int.not_lt.mpr found)] at ran
    simp only [bind_ok, pure_ok, lift_ok, Prod.exists, Prod.mk.injEq] at ran
    obtain ⟨result, parsed, body, n, closed, close, rfl, rfl⟩ := ran
    have reads := execReader_found opens found
    rw [execImage, reads]
    cases reader : openedReader opened t fd with
    | none =>
      simp only [elfBody, bind_ok, lift_ok, Prod.exists] at body
      obtain ⟨nbyte, data, files, read, body⟩ := body
      obtain ⟨rfl, rfl⟩ := readFile_noFile reader given.object given.accepted read
      rw [if_pos (.inl (by decide))] at body
      cases body
      refine ⟨rfl, given.closed rfl close, fun _ => by decide, ?_⟩
      intro r some
      cases some
    | some r =>
      obtain ⟨p, there⟩ := openedReader_opened given.accepted given.start reader
      obtain ⟨loads, table, entry, fails⟩ := Opened.body there body
      refine ⟨loads, given.closed table close, fails, ?_⟩
      intro r' same complete
      cases same
      exact entry complete

theorem sysExecv_overrun {s : System} {pathname : List UInt8} {k : Nat}
    (ran : sysExecv s t pathname = .error (.overrun k)) :
    ∃ r, execReader s.files t pathname = some r ∧ r.HeaderAccepted ∧ 4 < r.image.segments.length := by
  simp only [sysExecv, elfParse, bind_error, lift_overrun, false_or, lift_ok, Prod.exists] at ran
  obtain ⟨fd, opened, opens, ran⟩ := ran
  rcases sysOpen_given opens with ⟨failed, _⟩ | ⟨found, given⟩
  · rw [if_pos failed] at ran
    cases ran
  rw [if_neg (Int.not_lt.mpr found), bind_error] at ran
  rcases ran with body | ⟨⟨ret, parsed⟩, _, ran⟩
  · rw [execReader_found opens found]
    cases reader : openedReader opened t fd with
    | none =>
      simp only [elfBody, bind_error, lift_overrun, false_or, lift_ok, Prod.exists] at body
      obtain ⟨nbyte, data, files, read, body⟩ := body
      obtain ⟨rfl, rfl⟩ := readFile_noFile reader given.object given.accepted read
      rw [if_pos (.inl (by decide))] at body
      cases body
    | some r =>
      obtain ⟨p, there⟩ := openedReader_opened given.accepted given.start reader
      obtain ⟨accepted, more⟩ := Opened.body_overrun there body
      exact ⟨r, rfl, accepted, more⟩
  · simp only [bind_error, lift_overrun, false_or] at ran
    obtain ⟨_, _, ran⟩ := ran
    cases ran

def field (width n : Nat) : List UInt8 := (List.range width).map (byteOf n)

def Phdr.bytes (phdr : Phdr) : List UInt8 :=
  field 4 phdr.type ++ field 4 0 ++ field 8 phdr.offset ++ field 8 phdr.vaddr ++ field 8 phdr.vaddr ++
    field 8 phdr.filesz ++ field 8 phdr.memsz ++ field 8 pgSize

def elfFile (phnum : Nat) (headers : List Phdr) (data : List UInt8) : List UInt8 :=
  elfMagic ++ List.replicate 9 0 ++ field 2 etExec ++ field 2 emX8664 ++ field 4 1 ++ field 8 0x400000 ++
    field 8 ehdrSize ++ field 8 0 ++ field 4 0 ++ field 2 ehdrSize ++ field 2 phdrSize ++ field 2 phnum ++ field 6 0 ++
    headers.flatMap Phdr.bytes ++ data

def programDisk (files : List (List UInt8)) : Fs.Disk := fun bid i =>
  if bid = 11 then
    let iNo := i / Fs.diskInodeSize
    let size := if iNo = 0 then Fs.direntSize * files.length else (files.getD (iNo - 1) []).length
    Fs.DiskInode.store { fileSize := size, direct := fun idx => if idx = 0 then 15 + iNo else 0 } (i % Fs.diskInodeSize)
  else if bid = 15 then
    let idx := i / Fs.direntSize
    Fs.Dirent.store { iNo := idx + 1, filename := Fs.cstr [97 + idx.toUInt8], fType := .reg } (i % Fs.direntSize)
  else (files.getD (bid - 16) []).getD i 0

def System.start (files : List (List UInt8)) : System where
  files := Files.start (Fs.mounted (programDisk files) (Fs.Partition.superBlock ⟨64, 800⟩)) 2
  machine := Machine.start fun _ _ => 0

theorem System.start_space (files : List (List UInt8)) (t : Nat) :
    ((System.start files).machine.proc t).addrSpace = AddrSpace.zero := rfl

end RecoverOs.Userprog
