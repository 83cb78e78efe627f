import RecoverOs.Memory.Loading
import RecoverOs.Userprog.Recording

namespace RecoverOs.Userprog

open Bytes Memory Transition

variable {s after : System} {t : Nat} {pathname : List UInt8} {ret : Int} {r : Reader}

def Reader.loadedHeaders (r : Reader) : List Phdr := r.loads.1.map Load.phdr

def Phdr.pages (phdr : Phdr) : Nat × Nat := (pageStart phdr.vaddr, pageEnd phdr.vaddr phdr.memsz)

/-- Segments with pages of their own, whose bytes lie in the file. -/
structure SegmentsFit (size : Nat) (headers : List Phdr) : Prop where
  apart : headers.Pairwise fun left right => Clear left.pages right.pages
  small : ∀ phdr ∈ headers, phdr.filesz ≤ phdr.memsz
  inFile : ∀ phdr ∈ headers, phdr.offset + phdr.filesz ≤ size

/-- In the user half a segment holds its bytes of the file, and zeros behind them. -/
structure LoadedRight (m : Ram) (root : Nat) (byte : Buffer) (phdr : Phdr) : Prop where
  user : phdr.top ≤ defaultStack
  bytes : ∀ j < phdr.memsz,
    sight m root (phdr.vaddr + j) = some (if j < phdr.filesz then byte (phdr.offset + j) else 0)

structure TailZero (m : Ram) (root : Nat) (r : Reader) (phdr : Phdr) : Prop where
  user : phdr.top ≤ defaultStack
  file : ∀ j, phdr.filesz ≤ j → j < phdr.memsz → phdr.offset + j < r.size → r.byte (phdr.offset + j) = 0
  memory : ∀ j, phdr.filesz ≤ j → j < phdr.memsz → r.size ≤ phdr.offset + j →
    ∀ byte, sight m root (phdr.vaddr + j) = some byte → byte = 0

theorem Reader.segment_eq {r' : Reader} {phdr : Phdr} (size : r'.size = r.size) (byte : r'.byte = r.byte)
    (low : phdr.offset ≤ r.size) (small : r.size < 2 ^ 63) : (r'.segment phdr).nbyte = min phdr.memsz (r.size - phdr.offset) ∧
      ∀ k, (r'.segment phdr).data k = r.byte (phdr.offset + k) := by
  have position : (r'.seek phdr.offset).pos = phdr.offset := Reader.seek_pos (by omega)
  constructor
  · show min phdr.memsz ((r'.seek phdr.offset).size - (r'.seek phdr.offset).pos) = _
    rw [position, Reader.seek_size, size]
  · intro k
    show (r'.seek phdr.offset).byte ((r'.seek phdr.offset).pos + k) = _
    rw [position, Reader.seek_byte, byte]

theorem View.load_segment (view : View) {seg : Segment} {j : Nat} (inside : j < seg.memsz) :
    view.load seg (seg.vaddr + j) =
      some (if j < seg.nbyte then seg.data j else (view (seg.vaddr + j)).getD 0) := by
  have pages : seg.pages.1 ≤ seg.vaddr + j ∧ seg.vaddr + j < seg.pages.2 := Segment.inPages (by omega)
  rw [View.load, View.put, Nat.add_sub_cancel_left]
  by_cases brought : j < seg.nbyte
  · rw [if_pos (by omega), if_pos brought]
  · rw [if_neg (by omega), if_neg brought]
    exact if_pos pages

theorem loaded_segment_iff {m : Ram} {root : Nat} {r' : Reader} {phdr : Phdr} (size : r'.size = r.size)
    (byte : r'.byte = r.byte) (small : r.size < 2 ^ 63)
    (inFile : phdr.offset + phdr.filesz ≤ r.size) (j : Nat) (inside : j < phdr.memsz) :
    View.load (sight m root) (r'.segment phdr) (phdr.vaddr + j) =
        some (if j < phdr.filesz then r.byte (phdr.offset + j) else 0) ↔
      (phdr.filesz ≤ j → (phdr.offset + j < r.size → r.byte (phdr.offset + j) = 0) ∧
        (r.size ≤ phdr.offset + j → ∀ byte, sight m root (phdr.vaddr + j) = some byte → byte = 0)) := by
  have low : phdr.offset ≤ r.size := by omega
  obtain ⟨nbyte, data⟩ := Reader.segment_eq size byte low small
  have loaded : View.load (sight m root) (r'.segment phdr) (phdr.vaddr + j) =
      some (if j < (r'.segment phdr).nbyte then (r'.segment phdr).data j else (sight m root (phdr.vaddr + j)).getD 0) :=
    View.load_segment (sight m root) inside
  rw [loaded, nbyte, data]
  by_cases initial : j < phdr.filesz
  · rw [if_pos initial, if_pos (by omega)]
    exact iff_of_true rfl fun behind => absurd initial (Nat.not_lt.mpr behind)
  · rw [if_neg initial]
    by_cases more : phdr.offset + j < r.size
    · rw [if_pos (by omega), Option.some.injEq]
      constructor
      · exact fun zero _ => ⟨fun _ => zero, fun past => absurd more (Nat.not_lt.mpr past)⟩
      · exact fun both => (both (Nat.le_of_not_lt initial)).1 more
    · rw [if_neg (by omega), Option.some.injEq]
      constructor
      · intro zero _
        refine ⟨fun before => absurd before more, ?_⟩
        intro _ byte mapped
        rw [← zero]
        exact (congrArg (Option.getD · 0) mapped).symm
      · intro both
        have old := (both (Nat.le_of_not_lt initial)).2 (Nat.le_of_not_lt more)
        cases mapped : sight m root (phdr.vaddr + j) with
        | none => rfl
        | some byte => exact old byte mapped

/-- A segment is as it should be exactly if the file or the memory has zeros for its tail. -/
theorem execv_segments_right (s : System) (t : Nat) (pathname : List UInt8) (r : Reader) (ret : Int) (after : System)
    (reads : execReader s.files t pathname = some r) (small : r.size < 2 ^ 63)
    (own : OwnPages s.machine.ram (s.machine.proc t).pml4) (fits : SegmentsFit r.size r.loadedHeaders)
    (ran : sysExecv s t pathname = .ok (ret, after)) :
    (∀ phdr ∈ r.loadedHeaders, LoadedRight after.machine.ram (after.machine.proc t).pml4 r.byte phdr) ↔
      ∀ phdr ∈ r.loadedHeaders, TailZero s.machine.ram (s.machine.proc t).pml4 r phdr := by
  obtain ⟨loads, _⟩ := sysExecv_image ran
  have image : execImage s.files t pathname = r.image := by rw [execImage, reads]
  rw [image] at loads
  rw [(sysExecv_table loads).1]
  by_cases user : ∀ phdr ∈ r.loadedHeaders, phdr.top ≤ defaultStack
  · have fields : ∀ load ∈ r.loads.1, load.segment.vaddr = load.phdr.vaddr ∧ load.segment.memsz = load.phdr.memsz :=
      fun load member => Reader.loads_fields member
    have inside : ∀ seg ∈ r.image.segments, seg.vaddr + seg.memsz ≤ defaultStack := by
      intro seg member
      obtain ⟨load, among, rfl⟩ := List.mem_map.mp member
      rw [(fields load among).1, (fields load among).2]
      exact user load.phdr (List.mem_map_of_mem among)
    have shown := own.shows.sysExecv inside loads
    have apart : r.image.segments.Pairwise fun left right => Clear left.pages right.pages := by
      apply List.pairwise_map.mpr
      apply (List.pairwise_map.mp fits.apart).imp_of_mem
      intro left right leftIn rightIn clear
      simp only [Segment.pages, (fields left leftIn).1, (fields left leftIn).2, (fields right rightIn).1,
        (fields right rightIn).2]
      exact clear
    apply forall₂_congr
    intro phdr member
    obtain ⟨load, among, rfl⟩ := List.mem_map.mp member
    obtain ⟨r', size, byte, segment⟩ := Reader.loads_segment among
    have sees : ∀ j < load.phdr.memsz, sight after.machine.ram (s.machine.proc t).pml4 (load.phdr.vaddr + j) =
        View.load (sight s.machine.ram (s.machine.proc t).pml4) (r'.segment load.phdr) (load.phdr.vaddr + j) := by
      intro j less
      have top := user load.phdr member
      rw [shown.sees _ (Nat.lt_of_lt_of_le (Nat.add_lt_add_left less _) top), ← segment]
      apply View.loadAll_apart apart (List.mem_map_of_mem among)
      apply Segment.inPages
      rw [(fields load among).1, (fields load among).2]
      omega
    have each := fun j less => @loaded_segment_iff r s.machine.ram (s.machine.proc t).pml4 r' load.phdr size byte small
      (fits.inFile _ member) j less
    constructor
    · intro right
      have tail := fun j low less => (each j less).mp ((sees j less).symm.trans (right.bytes j less)) low
      exact ⟨right.user, fun j low less => (tail j low less).1, fun j low less => (tail j low less).2⟩
    · intro zero
      refine ⟨zero.user, ?_⟩
      intro j less
      rw [sees j less]
      exact (each j less).mpr fun low => ⟨zero.file j low less, zero.memory j low less⟩
  · refine iff_of_false ?_ ?_
    · exact fun right => user fun phdr member => (right phdr member).user
    · exact fun zero => user fun phdr member => (zero phdr member).user

def tailProgram (strings : List UInt8) : List UInt8 :=
  elfFile 2 [⟨ptLoad, 176, 0x400000, 2, 2⟩, ⟨ptLoad, 178, 0x600000, 1, 3⟩] ([0x90, 0x90, 7] ++ strings)

instance (size : Nat) (headers : List Phdr) : Decidable (SegmentsFit size headers) :=
  decidable_of_iff ((headers.Pairwise fun left right => Clear left.pages right.pages) ∧
    (∀ phdr ∈ headers, phdr.filesz ≤ phdr.memsz) ∧ ∀ phdr ∈ headers, phdr.offset + phdr.filesz ≤ size)
    ⟨fun ⟨apart, small, inFile⟩ => ⟨apart, small, inFile⟩, fun fits => ⟨fits.apart, fits.small, fits.inFile⟩⟩

theorem execv_segments_right_tail : ∃ r ret after,
    execReader (System.start [tailProgram []]).files 1 [47, 97] = some r ∧ r.loadedHeaders.length = 2 ∧
    sysExecv (System.start [tailProgram []]) 1 [47, 97] = .ok (ret, after) ∧ ret = 0x400000 ∧
    ∀ phdr ∈ r.loadedHeaders, LoadedRight after.machine.ram (after.machine.proc 1).pml4 r.byte phdr := by
  have evaluated : endsIn (sysExecv (System.start [tailProgram []]) 1 [47, 97]) (fun out => decide (out.1 = 0x400000)) =
      true := by
    decide +kernel
  have file : (execReader (System.start [tailProgram []]).files 1 [47, 97]).any (fun r => decide (r.size < 2 ^ 63 ∧
      r.loadedHeaders.length = 2 ∧ SegmentsFit r.size r.loadedHeaders ∧ ∀ phdr ∈ r.loadedHeaders,
        phdr.top ≤ defaultStack ∧ (∀ j < phdr.memsz, phdr.filesz ≤ j → r.size ≤ phdr.offset + j) ∧
        ∀ j < phdr.memsz, sight (System.start [tailProgram []]).machine.ram kernelPml4 (phdr.vaddr + j) = none)) =
      true := by
    decide +kernel
  have start : OwnPages (System.start [tailProgram []]).machine.ram
      ((System.start [tailProgram []]).machine.proc 1).pml4 :=
    (memInv_start ⟨fun _ _ _ _ => rfl, fun _ _ => rfl⟩).ownPages ⟨by decide, by decide⟩
  have root : ((System.start [tailProgram []]).machine.proc 1).pml4 = kernelPml4 := rfl
  generalize System.start [tailProgram []] = s at evaluated file start root ⊢
  obtain ⟨r, reads, facts⟩ := (Option.any_eq_true _ _).mp file
  obtain ⟨small, two, fits, tails⟩ := of_decide_eq_true facts
  obtain ⟨⟨ret, after⟩, ran, entry⟩ := exists_of_endsIn evaluated
  refine ⟨r, ret, after, reads, two, ran, of_decide_eq_true entry, ?_⟩
  apply (execv_segments_right s 1 [47, 97] r ret after reads small start fits ran).mpr
  intro phdr member
  obtain ⟨user, past, unmapped⟩ := tails phdr member
  refine ⟨user, ?_, ?_⟩
  · intro j low less inFile
    exact absurd inFile (Nat.not_lt.mpr (past j less low))
  · intro j _ less _ byte mapped
    rw [root, unmapped j less] at mapped
    cases mapped

/-- What follows the variable in the file is loaded behind it. -/
theorem tail_gets_file_bytes : ∃ r ret after,
    execReader (System.start [tailProgram [0x2e, 0x74]]).files 1 [47, 97] = some r ∧ r.HeaderAccepted ∧ r.TableInFile ∧
    r.loadedHeaders.length = 2 ∧ SegmentsFit r.size r.loadedHeaders ∧
    sysExecv (System.start [tailProgram [0x2e, 0x74]]) 1 [47, 97] = .ok (ret, after) ∧ ret = 0x400000 ∧
    sight after.machine.ram (after.machine.proc 1).pml4 0x600001 = some 0x2e ∧
    ¬ ∀ phdr ∈ r.loadedHeaders, LoadedRight after.machine.ram (after.machine.proc 1).pml4 r.byte phdr := by
  have evaluated : endsIn (sysExecv (System.start [tailProgram [0x2e, 0x74]]) 1 [47, 97]) (fun out =>
      decide (out.1 = 0x400000 ∧
        sight out.2.machine.ram (out.2.machine.proc 1).pml4 0x600001 = some 0x2e)) = true := by
    decide +kernel
  have file : (execReader (System.start [tailProgram [0x2e, 0x74]]).files 1 [47, 97]).any (fun r =>
      decide (r.HeaderAccepted ∧ r.TableInFile ∧ r.loadedHeaders.length = 2 ∧ SegmentsFit r.size r.loadedHeaders ∧
        ∃ phdr ∈ r.loadedHeaders, phdr.vaddr = 0x600000 ∧ phdr.filesz = 1 ∧ phdr.memsz = 3)) = true := by
    decide +kernel
  generalize System.start [tailProgram [0x2e, 0x74]] = s at evaluated file ⊢
  obtain ⟨r, reads, facts⟩ := (Option.any_eq_true _ _).mp file
  obtain ⟨accepted, inFile, two, fits, phdr, member, vaddr, filesz, memsz⟩ := of_decide_eq_true facts
  obtain ⟨⟨ret, after⟩, ran, check⟩ := exists_of_endsIn evaluated
  obtain ⟨entry, byte⟩ := of_decide_eq_true check
  refine ⟨r, ret, after, reads, accepted, inFile, two, fits, ran, entry, byte, ?_⟩
  intro right
  have zero := (right phdr member).bytes 1 (by rw [memsz]; decide)
  rw [vaddr, filesz, if_neg (by decide), byte] at zero
  cases zero

end RecoverOs.Userprog
