import RecoverOs.Userprog.Image

namespace RecoverOs.Userprog

open Bytes Memory Transition
open Fs (Files)

variable {r : Reader} {ehdr : Ehdr} {left progIdx : Nat}

def tableFrom (byte : Buffer) (ehdr : Ehdr) (progIdx left : Nat) : List Phdr :=
  ((List.range' progIdx left).map fun i => Phdr.load fun k => byte (ehdr.phoff + phdrSize * i + k)).filter
    fun phdr => phdr.type = ptLoad

theorem Reader.entry_inFile (entries : ehdr.phentsize = phdrSize)
    (inFile : ehdr.phoff + phdrSize * progIdx < 2 ^ 63 ∧ ehdr.phoff + phdrSize * progIdx + phdrSize ≤ r.size) :
    (r.entry ehdr progIdx).nbyte ehdr.phentsize = ehdr.phentsize ∧
      r.header ehdr progIdx = Phdr.load fun k => r.byte (ehdr.phoff + phdrSize * progIdx + k) := by
  have position : (r.entry ehdr progIdx).pos = ehdr.phoff + phdrSize * progIdx := by
    rw [Reader.entry, entries, Nat.mul_comm]
    exact Reader.seek_pos ⟨inFile.1, by omega⟩
  constructor
  · rw [Reader.nbyte, position, entries, Reader.entry, Reader.seek_size]
    omega
  · rw [Reader.header]
    congr 1
    funext k
    rw [Reader.data, position, Reader.entry, Reader.seek_byte]

theorem readHeaders_table (entries : ehdr.phentsize = phdrSize)
    (inFile : ∀ i, progIdx ≤ i → i < progIdx + left →
      ehdr.phoff + phdrSize * i < 2 ^ 63 ∧ ehdr.phoff + phdrSize * i + phdrSize ≤ r.size) :
    (readHeaders ehdr left progIdx r).2 = true ∧
      (readHeaders ehdr left progIdx r).1.map Load.phdr = tableFrom r.byte ehdr progIdx left := by
  induction left generalizing progIdx r with
  | zero => exact ⟨rfl, rfl⟩
  | succ left ih =>
    obtain ⟨whole, header⟩ := Reader.entry_inFile entries (inFile progIdx (Nat.le_refl _) (by omega))
    have later : ∀ r' : Reader, r'.size = r.size → r'.byte = r.byte → (readHeaders ehdr left (progIdx + 1) r').2 = true ∧
        (readHeaders ehdr left (progIdx + 1) r').1.map Load.phdr = tableFrom r.byte ehdr (progIdx + 1) left := by
      intro r' size byte
      rw [← byte]
      apply ih
      intro i low high
      rw [size]
      exact inFile i (by omega) (by omega)
    rw [readHeaders_succ, if_neg (not_not.mpr whole), tableFrom, List.range'_succ, List.map_cons, List.filter_cons,
      ← header]
    by_cases isLoad : (r.header ehdr progIdx).type = ptLoad
    · obtain ⟨complete, rest⟩ := later (((r.next ehdr progIdx).seek (r.header ehdr progIdx).offset).skip
        (r.header ehdr progIdx).memsz) (by simp [Reader.next, Reader.entry]) (by simp [Reader.next, Reader.entry])
      rw [if_pos isLoad, if_pos (by simpa using isLoad), List.map_cons, rest]
      exact ⟨complete, rfl⟩
    · rw [if_neg isLoad, if_neg (by simpa using isLoad)]
      exact later (r.next ehdr progIdx) (by simp [Reader.next, Reader.entry]) (by simp [Reader.next, Reader.entry])

theorem readHeaders_segment {load : Load} (member : load ∈ (readHeaders ehdr left progIdx r).1) :
    ∃ r' : Reader, r'.size = r.size ∧ r'.byte = r.byte ∧ load.segment = r'.segment load.phdr := by
  induction left generalizing progIdx r with
  | zero => cases member
  | succ left ih =>
    rw [readHeaders_succ] at member
    split at member
    · cases member
    split at member
    · rcases List.mem_cons.mp member with rfl | later
      · exact ⟨r.next ehdr progIdx, by simp [Reader.next, Reader.entry], by simp [Reader.next, Reader.entry], rfl⟩
      · obtain ⟨r', size, byte, same⟩ := ih later
        exact ⟨r', by simp [size, Reader.next, Reader.entry], by simp [byte, Reader.next, Reader.entry], same⟩
    · obtain ⟨r', size, byte, same⟩ := ih member
      exact ⟨r', by simp [size, Reader.next, Reader.entry], by simp [byte, Reader.next, Reader.entry], same⟩

theorem Reader.loads_table (accepted : r.HeaderAccepted) (inFile : r.TableInFile) :
    r.loads.2 = true ∧ r.loads.1.map Load.phdr = r.loadHeaders := by
  obtain ⟨complete, table⟩ := @readHeaders_table (r.skip ehdrSize) r.ehdr r.ehdr.phnum 0 accepted.2.2.2.2.2
    fun i _ less => inFile i (by omega)
  rw [Reader.loads, if_pos accepted]
  refine ⟨complete, table.trans ?_⟩
  rw [tableFrom, Reader.loadHeaders, List.range_eq_range']
  rfl

def highest (ends : List Nat) : Nat := ends.foldr max 0

theorem highest_lt {ends : List Nat} {bound : Nat} (positive : 0 < bound) (below : ∀ x ∈ ends, x < bound) :
    highest ends < bound := by
  induction ends with
  | nil => exact positive
  | cons x ends ih =>
    have first := below x (List.mem_cons_self ..)
    have rest := ih fun y member => below y (List.mem_cons_of_mem _ member)
    exact Nat.max_lt.mpr ⟨first, rest⟩

theorem le_highest {ends : List Nat} {x : Nat} (member : x ∈ ends) : x ≤ highest ends := by
  induction ends with
  | nil => cases member
  | cons y ends ih =>
    rcases List.mem_cons.mp member with rfl | later
    · exact Nat.le_max_left ..
    · exact Nat.le_trans (ih later) (Nat.le_max_right ..)

theorem highest_wrap (ends : List Nat) : highest (ends.map wrap) = highest ends ↔ ∀ x ∈ ends, x < 2 ^ 64 := by
  constructor
  · intro same x member
    have low : highest (ends.map wrap) < 2 ^ 64 := by
      apply highest_lt (by decide)
      intro y wrapped
      obtain ⟨z, _, rfl⟩ := List.mem_map.mp wrapped
      exact Nat.mod_lt _ (by decide)
    have most := le_highest member
    omega
  · intro small
    have unchanged : ends.map wrap = ends := by
      conv_rhs => rw [← List.map_id ends]
      exact List.map_congr_left fun x member => Nat.mod_eq_of_lt (small x member)
    rw [unchanged]

def Phdr.top (phdr : Phdr) : Nat := phdr.vaddr + phdr.memsz

structure Recorded (headers : List Phdr) (space : AddrSpace) : Prop where
  few : headers.length ≤ 4
  entries : ∀ k (inside : k < headers.length),
    space.vaddr k = headers[k].vaddr ∧ space.filesz k = headers[k].memsz
  rest : ∀ k < 4, headers.length ≤ k → space.vaddr k = 0 ∧ space.filesz k = 0
  heap : space.heapStart = highest (headers.map Phdr.top) ∧ space.heapEnd = highest (headers.map Phdr.top)

theorem record_top {space : AddrSpace} {loadIdx : Nat} {segments : List Segment} :
    (space.record loadIdx segments).heapStart =
      max space.heapStart (highest (segments.map fun seg => wrap (seg.vaddr + seg.memsz))) := by
  induction segments generalizing space loadIdx with
  | nil => exact (Nat.max_zero _).symm
  | cons seg rest ih =>
    rw [AddrSpace.record, ih, List.map_cons]
    exact Nat.max_assoc ..

theorem exec_heapStart (space : AddrSpace) (image : Image) : (space.exec image).heapStart =
    highest (image.segments.map fun seg => wrap (seg.vaddr + seg.memsz)) := by
  have recorded := (@record_top { space with heapStart := 0 } 0 image.segments).trans (Nat.zero_max _)
  unfold AddrSpace.exec
  split
  · exact recorded
  · exact recorded

theorem exec_new (space : AddrSpace) (image : Image) {k : Nat} (inside : k < image.segments.length) :
    (space.exec image).vaddr k = image.segments[k].vaddr ∧ (space.exec image).filesz k = image.segments[k].memsz := by
  have recorded := @record_new { space with heapStart := 0 } 0 image.segments k inside
  rw [Nat.zero_add] at recorded
  unfold AddrSpace.exec
  split
  · exact recorded
  · exact recorded

theorem exec_kept (space : AddrSpace) (image : Image) {k : Nat} (behind : image.segments.length ≤ k) :
    (space.exec image).vaddr k = space.vaddr k ∧ (space.exec image).filesz k = space.filesz k := by
  have recorded := @record_kept { space with heapStart := 0 } 0 image.segments k (.inr (by omega))
  unfold AddrSpace.exec
  split
  · exact recorded
  · exact recorded

theorem record_heapEnd {space : AddrSpace} {loadIdx : Nat} {segments : List Segment} :
    (space.record loadIdx segments).heapEnd = space.heapEnd := by
  induction segments generalizing space loadIdx with
  | nil => rfl
  | cons seg rest ih => exact ih

theorem exec_heapEnd (space : AddrSpace) (image : Image) : (space.exec image).heapEnd =
    if image.complete then (space.exec image).heapStart else space.heapEnd := by
  unfold AddrSpace.exec
  split
  · rfl
  · exact record_heapEnd

theorem exec_recorded (space : AddrSpace) {loads : List Load}
    (fields : ∀ load ∈ loads, load.segment.vaddr = load.phdr.vaddr ∧ load.segment.memsz = load.phdr.memsz) :
    Recorded (loads.map Load.phdr) (space.exec ⟨loads.map Load.segment, true⟩) ↔ loads.length ≤ 4 ∧
      (∀ k < 4, loads.length ≤ k → space.vaddr k = 0 ∧ space.filesz k = 0) ∧
      ∀ phdr ∈ loads.map Load.phdr, phdr.top < 2 ^ 64 := by
  have old : ∀ k, loads.length ≤ k → (space.exec ⟨loads.map Load.segment, true⟩).vaddr k = space.vaddr k ∧
      (space.exec ⟨loads.map Load.segment, true⟩).filesz k = space.filesz k :=
    fun k behind => exec_kept space ⟨loads.map Load.segment, true⟩ (by rw [List.length_map]; exact behind)
  have new : ∀ k (inside : k < loads.length),
      (space.exec ⟨loads.map Load.segment, true⟩).vaddr k = loads[k].phdr.vaddr ∧
      (space.exec ⟨loads.map Load.segment, true⟩).filesz k = loads[k].phdr.memsz := by
    intro k inside
    obtain ⟨start, size⟩ := @exec_new space ⟨loads.map Load.segment, true⟩ k (by rw [List.length_map]; exact inside)
    obtain ⟨start', size'⟩ := fields loads[k] (List.getElem_mem inside)
    rw [List.getElem_map] at start size
    exact ⟨start.trans start', size.trans size'⟩
  have tops : (loads.map Load.segment).map (fun seg => wrap (seg.vaddr + seg.memsz)) =
      ((loads.map Load.phdr).map Phdr.top).map wrap := by
    simp only [List.map_map]
    apply List.map_congr_left
    intro load member
    obtain ⟨start, size⟩ := fields load member
    simp only [Function.comp, start, size, Phdr.top]
  have heapStart : (space.exec ⟨loads.map Load.segment, true⟩).heapStart =
      highest (((loads.map Load.phdr).map Phdr.top).map wrap) := by
    rw [← tops]
    exact exec_heapStart space _
  have heapEnd : (space.exec ⟨loads.map Load.segment, true⟩).heapEnd =
      (space.exec ⟨loads.map Load.segment, true⟩).heapStart := rfl
  constructor
  · intro recorded
    refine ⟨by simpa using recorded.few, ?_, ?_⟩
    · intro k inside behind
      rw [← (old k behind).1, ← (old k behind).2]
      exact recorded.rest k inside (by rw [List.length_map]; exact behind)
    · intro phdr member
      exact (highest_wrap _).mp (heapStart.symm.trans recorded.heap.1) _ (List.mem_map_of_mem member)
  · intro ⟨few, empty, inside⟩
    have same := (highest_wrap ((loads.map Load.phdr).map Phdr.top)).mpr (by
      intro x member
      obtain ⟨phdr, among, rfl⟩ := List.mem_map.mp member
      exact inside phdr among)
    constructor
    case few => simpa using few
    case entries =>
      intro k less
      rw [List.length_map] at less
      rw [List.getElem_map]
      exact new k less
    case rest =>
      intro k small behind
      rw [List.length_map] at behind
      rw [(old k behind).1, (old k behind).2]
      exact empty k small behind
    case heap =>
      rw [heapEnd, heapStart, same]
      exact ⟨rfl, rfl⟩

theorem Reader.loads_segment {load : Load} (member : load ∈ r.loads.1) :
    ∃ r' : Reader, r'.size = r.size ∧ r'.byte = r.byte ∧ load.segment = r'.segment load.phdr := by
  unfold Reader.loads at member
  split at member
  · obtain ⟨r', size, byte, same⟩ := readHeaders_segment member
    exact ⟨r', size, byte, same⟩
  · cases member

theorem Reader.loads_fields {load : Load} (member : load ∈ r.loads.1) :
    load.segment.vaddr = load.phdr.vaddr ∧ load.segment.memsz = load.phdr.memsz := by
  obtain ⟨r', _, _, same⟩ := r.loads_segment member
  rw [same]
  exact ⟨rfl, rfl⟩

/-- The call neither returns an error nor ends in one of the calls it makes. -/
def Proceeds : Except Stop (Int × System) → Prop
  | .ok (ret, _) => 0 ≤ ret
  | .error (.overrun _) => True
  | .error (.halt _) => False

/-- Unless an error is returned, all headers lie in the file, no entry past the arrays is written, and what the call
    leaves is the table. -/
def RecordsImage (s : System) (t : Nat) (pathname : List UInt8) (r : Reader) : Prop :=
  match sysExecv s t pathname with
  | .ok (ret, after) => ret < 0 ∨ (r.TableInFile ∧ Recorded r.loadHeaders (after.machine.proc t).addrSpace)
  | .error (.overrun _) => False
  | .error (.halt _) => True

/-- Entries are only ever overwritten, never cleared or counted, and no position is checked. -/
theorem execv_records_image (s : System) (t : Nat) (pathname : List UInt8) (r : Reader)
    (reads : execReader s.files t pathname = some r) (accepted : r.HeaderAccepted)
    (proceeds : Proceeds (sysExecv s t pathname)) :
    RecordsImage s t pathname r ↔ r.TableInFile ∧ r.loadHeaders.length ≤ 4 ∧
      (∀ k < 4, r.loadHeaders.length ≤ k →
        (s.machine.proc t).addrSpace.vaddr k = 0 ∧ (s.machine.proc t).addrSpace.filesz k = 0) ∧
      ∀ phdr ∈ r.loadHeaders, phdr.top < 2 ^ 64 := by
  have image : execImage s.files t pathname = r.image := by rw [execImage, reads]
  cases result : sysExecv s t pathname with
  | error stop =>
    cases stop with
    | halt halt =>
      rw [result] at proceeds
      exact proceeds.elim
    | overrun k =>
      rw [RecordsImage, result]
      refine iff_of_false id ?_
      intro recorded
      obtain ⟨inFile, few, _⟩ := recorded
      obtain ⟨r', reads', _, more⟩ := sysExecv_overrun result
      cases reads.symm.trans reads'
      rw [← (r.loads_table accepted inFile).2, List.length_map] at few
      rw [Reader.image, List.length_map] at more
      exact absurd more (Nat.not_lt.mpr few)
  | ok out =>
    obtain ⟨ret, after⟩ := out
    rw [result] at proceeds
    have positive : 0 ≤ ret := proceeds
    obtain ⟨ran, _, fails, _⟩ := sysExecv_image result
    rw [image] at ran fails
    have complete : r.loads.2 = true := by
      cases all : r.loads.2 with
      | true => rfl
      | false => exact absurd (fails all) (Int.not_lt.mpr positive)
    have space : (after.machine.proc t).addrSpace =
        (s.machine.proc t).addrSpace.exec ⟨r.loads.1.map Load.segment, true⟩ := by
      rw [(sysExecv_table ran).2, Reader.image, complete]
    rw [RecordsImage, result]
    dsimp only
    rw [or_iff_right (Int.not_lt.mpr positive), space]
    apply and_congr_right
    intro inFile
    have table := (r.loads_table accepted inFile).2
    rw [← table, exec_recorded _ fun load member => Reader.loads_fields member, List.length_map]

def oneSegment : List UInt8 := elfFile 1 [⟨ptLoad, 120, 0x400000, 2, 2⟩] [0x90, 0x90]

def twoSegments : List UInt8 := elfFile 2 [⟨ptLoad, 176, 0x400000, 2, 2⟩, ⟨ptLoad, 177, 0x600000, 1, 1⟩] [0x90, 0x90]

theorem execv_records_two : ∃ r, execReader (System.start [twoSegments]).files 1 [47, 97] = some r ∧
    r.loadHeaders.length = 2 ∧ RecordsImage (System.start [twoSegments]) 1 [47, 97] r := by
  have evaluated : (execReader (System.start [twoSegments]).files 1 [47, 97]).any (fun r => decide (r.HeaderAccepted ∧
      r.TableInFile ∧ r.loadHeaders.length = 2 ∧ ∀ phdr ∈ r.loadHeaders, phdr.top < 2 ^ 64)) = true := by
    decide +kernel
  have finished : endsIn (sysExecv (System.start [twoSegments]) 1 [47, 97]) (fun out => decide (0 ≤ out.1)) = true := by
    decide +kernel
  have fresh := System.start_space [twoSegments] 1
  generalize System.start [twoSegments] = s at evaluated finished fresh ⊢
  obtain ⟨r, reads, facts⟩ := (Option.any_eq_true _ _).mp evaluated
  obtain ⟨accepted, inFile, two, inside⟩ := of_decide_eq_true facts
  obtain ⟨⟨ret, after⟩, ran, positive⟩ := exists_of_endsIn finished
  have noError : 0 ≤ ret := of_decide_eq_true positive
  have proceeds : Proceeds (sysExecv s 1 [47, 97]) := by
    rw [ran]
    exact noError
  refine ⟨r, reads, two, (execv_records_image s 1 [47, 97] r reads accepted proceeds).mpr ⟨inFile, ?_, ?_, inside⟩⟩
  · rw [two]
    decide
  · intro k _ _
    rw [fresh]
    exact ⟨rfl, rfl⟩

/-- The second entry of the old image is still there. -/
theorem execv_keeps_old_entry : ∃ ret s r ret' after,
    sysExecv (System.start [twoSegments, oneSegment]) 1 [47, 97] = .ok (ret, s) ∧
    execReader s.files 1 [47, 98] = some r ∧ r.HeaderAccepted ∧ r.loadHeaders.length = 1 ∧
    sysExecv s 1 [47, 98] = .ok (ret', after) ∧ 0 ≤ ret' ∧ (after.machine.proc 1).addrSpace.vaddr 1 = 0x600000 ∧
    ¬ RecordsImage s 1 [47, 98] r := by
  have evaluated : endsIn (sysExecv (System.start [twoSegments, oneSegment]) 1 [47, 97]) (fun first =>
      (execReader first.2.files 1 [47, 98]).any (fun r => decide (r.HeaderAccepted ∧ r.loadHeaders.length = 1)) &&
      endsIn (sysExecv first.2 1 [47, 98]) fun second => decide (0 ≤ second.1 ∧
        (second.2.machine.proc 1).addrSpace.vaddr 1 = 0x600000)) = true := by
    decide +kernel
  obtain ⟨⟨ret, s⟩, first, rest⟩ := exists_of_endsIn evaluated
  rw [Bool.and_eq_true] at rest
  obtain ⟨r, reads, facts⟩ := (Option.any_eq_true _ _).mp rest.1
  obtain ⟨accepted, one⟩ := of_decide_eq_true facts
  obtain ⟨⟨ret', after⟩, second, check⟩ := exists_of_endsIn rest.2
  obtain ⟨positive, stale⟩ := of_decide_eq_true check
  refine ⟨ret, s, r, ret', after, first, reads, accepted, one, second, positive, stale, ?_⟩
  rw [RecordsImage, second]
  intro either
  rcases either with negative | ⟨_, recorded⟩
  · exact absurd negative (Int.not_lt.mpr positive)
  · obtain ⟨empty, _⟩ := recorded.rest 1 (by decide) (by rw [one])
    rw [stale] at empty
    cases empty

end RecoverOs.Userprog
