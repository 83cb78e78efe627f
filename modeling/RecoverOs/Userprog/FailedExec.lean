import RecoverOs.Memory.Loading
import RecoverOs.Userprog.Recording

namespace RecoverOs.Userprog

open Bytes Memory Transition

variable {s after : System} {t : Nat} {pathname : List UInt8} {ret : Int}

/-- The address space, the descriptors and the bytes that are mapped are as before. -/
structure Unchanged (s after : System) (t : Nat) : Prop where
  space : (after.machine.proc t).addrSpace = (s.machine.proc t).addrSpace
  table : after.files.fdTable t = s.files.fdTable t
  bytes : ∀ v < defaultStack, ∀ byte, sight s.machine.ram (s.machine.proc t).pml4 v = some byte →
    sight after.machine.ram (after.machine.proc t).pml4 v = some byte

structure HoldsImage (image : Image) (space : AddrSpace) : Prop where
  entries : ∀ k (inside : k < image.segments.length),
    space.vaddr k = image.segments[k].vaddr ∧ space.filesz k = image.segments[k].memsz
  heapStart : space.heapStart = highest (image.segments.map fun seg => wrap (seg.vaddr + seg.memsz))
  heapEnd : image.complete = true → space.heapEnd = space.heapStart

/-- Nothing changes in an address space exactly if it holds the image already. -/
theorem exec_unchanged (space : AddrSpace) (image : Image) : space.exec image = space ↔ HoldsImage image space := by
  constructor
  · intro same
    constructor
    case entries =>
      intro k inside
      have new := exec_new space image inside
      rw [same] at new
      exact new
    case heapStart =>
      have start := exec_heapStart space image
      rw [same] at start
      exact start
    case heapEnd =>
      intro complete
      have ends := exec_heapEnd space image
      rw [same, if_pos complete] at ends
      exact ends
  · intro holds
    have entry : ∀ k, (space.exec image).vaddr k = space.vaddr k ∧ (space.exec image).filesz k = space.filesz k := by
      intro k
      by_cases inside : k < image.segments.length
      · obtain ⟨start, size⟩ := exec_new space image inside
        obtain ⟨start', size'⟩ := holds.entries k inside
        exact ⟨start.trans start'.symm, size.trans size'.symm⟩
      · exact exec_kept space image (Nat.le_of_not_lt inside)
    have start : (space.exec image).heapStart = space.heapStart := by rw [exec_heapStart, ← holds.heapStart]
    have ends : (space.exec image).heapEnd = space.heapEnd := by
      rw [exec_heapEnd]
      split
      · rename_i complete
        rw [start, holds.heapEnd complete]
      · rfl
    show AddrSpace.mk (space.exec image).vaddr (space.exec image).filesz (space.exec image).heapStart
      (space.exec image).heapEnd = space
    rw [start, ends, funext fun k => (entry k).1, funext fun k => (entry k).2]

/-- The pages below the root of the task have one place each, and the image lies in the user half. -/
def Loadable (s : Machine) (t : Nat) (image : Image) : Prop :=
  OwnPages s.ram (s.proc t).pml4 ∧ ∀ seg ∈ image.segments, seg.vaddr + seg.memsz ≤ defaultStack

theorem sysExecv_noSegments {s after : Machine} {image : Image} (none : image.segments = [])
    (ran : Memory.sysExecv s t image = .ok after) : after.ram = s.ram := by
  simp only [Memory.sysExecv, none, loadSegments, bind_ok, pure_ok, Except.ok.injEq, exists_eq_left'] at ran
  rw [← ran]
  split
  · rfl
  · rfl

theorem sysExecv_bytes {s after : Machine} {image : Image} (fits : image.segments = [] ∨ Loadable s t image)
    (ran : Memory.sysExecv s t image = .ok after) :
    (∀ v < defaultStack, ∀ byte, sight s.ram (s.proc t).pml4 v = some byte →
      sight after.ram (after.proc t).pml4 v = some byte) ↔
    ∀ v < defaultStack, ∀ byte new, sight s.ram (s.proc t).pml4 v = some byte →
      delivered image.segments v = some new → new = byte := by
  rw [(sysExecv_table ran).1]
  rcases fits with none | ⟨own, user⟩
  · rw [sysExecv_noSegments none ran, none]
    refine iff_of_true (fun _ _ _ => id) ?_
    intro _ _ _ _ _ new
    cases new
  · have shown := own.shows.sysExecv user ran
    have now : ∀ v < defaultStack, ∀ byte, sight s.ram (s.proc t).pml4 v = some byte →
        sight after.ram (s.proc t).pml4 v = some ((delivered image.segments v).getD byte) :=
      fun v inside byte mapped => (shown.sees v inside).trans (View.loadAll_mapped mapped)
    constructor
    · intro kept v inside byte new mapped brought
      have same := (now v inside byte mapped).symm.trans (kept v inside byte mapped)
      rw [brought] at same
      exact Option.some.inj same
    · intro matches' v inside byte mapped
      rw [now v inside byte mapped]
      cases brought : delivered image.segments v with
      | none => rfl
      | some new => rw [matches' v inside byte new mapped brought, Option.getD_some]

/-- A call clears `heap_start` and loads segments before it can fail, so it changes nothing only if all that it writes was
    there already. -/
theorem execv_unchanged_iff (s : System) (t : Nat) (pathname : List UInt8) (ret : Int) (after : System)
    (ran : sysExecv s t pathname = .ok (ret, after)) :
    after.files.fdTable = s.files.fdTable ∧
    (Unchanged s after t → HoldsImage (execImage s.files t pathname) (s.machine.proc t).addrSpace) ∧
    ((execImage s.files t pathname).segments = [] ∨ Loadable s.machine t (execImage s.files t pathname) →
      (Unchanged s after t ↔ HoldsImage (execImage s.files t pathname) (s.machine.proc t).addrSpace ∧
        ∀ v < defaultStack, ∀ byte new, sight s.machine.ram (s.machine.proc t).pml4 v = some byte →
          delivered (execImage s.files t pathname).segments v = some new → new = byte)) := by
  obtain ⟨loads, table, _⟩ := sysExecv_image ran
  have space := (sysExecv_table loads).2
  have holds : Unchanged s after t → HoldsImage (execImage s.files t pathname) (s.machine.proc t).addrSpace :=
    fun unchanged => (exec_unchanged _ _).mp (space.symm.trans unchanged.space)
  refine ⟨table, holds, ?_⟩
  intro fits
  rw [← sysExecv_bytes fits loads]
  constructor
  · exact fun unchanged => ⟨holds unchanged, unchanged.bytes⟩
  · exact fun both => ⟨space.trans ((exec_unchanged _ _).mpr both.1), by rw [table], both.2⟩

def truncated : List UInt8 := elfFile 2 [⟨ptLoad, 120, 0x400000, 2, 2⟩] [0x90, 0x91]

theorem truncated_twice_unchanged : ∃ ret s ret' after, sysExecv (System.start [truncated]) 1 [47, 97] = .ok (ret, s) ∧
    ret < 0 ∧ sysExecv s 1 [47, 97] = .ok (ret', after) ∧ ret' < 0 ∧
    (s.machine.proc 1).addrSpace.heapStart = 0x400002 ∧ Unchanged s after 1 := by
  have evaluated : endsIn (sysExecv (System.start [truncated]) 1 [47, 97]) (fun first =>
      decide (first.1 < 0 ∧ (first.2.machine.proc 1).addrSpace.vaddr 0 = 0x400000 ∧
        (first.2.machine.proc 1).addrSpace.filesz 0 = 2 ∧ (first.2.machine.proc 1).addrSpace.heapStart = 0x400002 ∧
        (execImage first.2.files 1 [47, 97]).complete = false) &&
      endsIn (sysExecv first.2 1 [47, 97]) (fun second => decide (second.1 < 0)) &&
      decide ((execImage first.2.files 1 [47, 97]).segments.length = 1) &&
      (execImage first.2.files 1 [47, 97]).segments.all (fun seg =>
        decide (seg.vaddr = 0x400000 ∧ seg.memsz = 2 ∧ seg.nbyte = 2 ∧
          sight first.2.machine.ram (first.2.machine.proc 1).pml4 0x400000 = some (seg.data 0) ∧
          sight first.2.machine.ram (first.2.machine.proc 1).pml4 0x400001 = some (seg.data 1)))) = true := by
    decide +kernel
  have start : OwnPages (System.start [truncated]).machine.ram ((System.start [truncated]).machine.proc 1).pml4 :=
    (memInv_start ⟨fun _ _ _ _ => rfl, fun _ _ => rfl⟩).ownPages ⟨by decide, by decide⟩
  have place : ∀ seg ∈ (execImage (System.start [truncated]).files 1 [47, 97]).segments,
      seg.vaddr + seg.memsz ≤ defaultStack := by
    decide +kernel
  generalize System.start [truncated] = fresh at evaluated start place ⊢
  obtain ⟨⟨ret, s⟩, first, rest⟩ := exists_of_endsIn evaluated
  simp only [Bool.and_eq_true] at rest
  obtain ⟨⟨⟨facts, again⟩, single⟩, bytes⟩ := rest
  obtain ⟨failed, entry, size, heap, cut⟩ := of_decide_eq_true facts
  obtain ⟨⟨ret', after⟩, second, failed'⟩ := exists_of_endsIn again
  obtain ⟨loads, _⟩ := sysExecv_image first
  have own : OwnPages s.machine.ram (s.machine.proc 1).pml4 := by
    rw [(sysExecv_table loads).1]
    exact (start.shows.sysExecv place loads).own
  refine ⟨ret, s, ret', after, first, failed, second, of_decide_eq_true failed', heap, ?_⟩
  obtain ⟨seg, only⟩ := List.length_eq_one_iff.mp (of_decide_eq_true single)
  rw [only, List.all_cons, List.all_nil, Bool.and_true] at bytes
  obtain ⟨vaddr, memsz, nbyte, byte0, byte1⟩ := of_decide_eq_true bytes
  have loadable : Loadable s.machine 1 (execImage s.files 1 [47, 97]) := by
    refine ⟨own, ?_⟩
    intro seg' member
    rw [only, List.mem_singleton] at member
    rw [member, vaddr, memsz]
    decide
  apply ((execv_unchanged_iff s 1 [47, 97] ret' after second).2.2 (.inr loadable)).mpr
  generalize execImage s.files 1 [47, 97] = image at cut only ⊢
  obtain ⟨segments, complete⟩ := image
  dsimp only at cut only
  subst cut only
  refine ⟨⟨?_, ?_, ?_⟩, ?_⟩
  · intro k inside
    obtain rfl : k = 0 := by simpa using inside
    exact ⟨entry.trans vaddr.symm, size.trans memsz.symm⟩
  · rw [heap, List.map_singleton, vaddr, memsz]
    decide
  · intro all
    cases all
  · intro v _ byte new mapped brought
    rw [delivered, delivered, vaddr, nbyte] at brought
    dsimp only at brought
    split at brought
    · rename_i inside
      rcases (by omega : v = 0x400000 ∨ v = 0x400001) with rfl | rfl
      · exact Option.some.inj (brought.symm.trans (byte0.symm.trans mapped))
      · exact Option.some.inj (brought.symm.trans (byte1.symm.trans mapped))
    · cases brought

theorem missing_file_clears_heap : ∃ ret s ret' after, sysExecv (System.start [oneSegment]) 1 [47, 97] = .ok (ret, s) ∧
    (s.machine.proc 1).addrSpace.heapStart = 0x400002 ∧ sysExecv s 1 [47, 98] = .ok (ret', after) ∧ ret' = -5 ∧
    (after.machine.proc 1).addrSpace.heapStart = 0 ∧ ¬ Unchanged s after 1 := by
  have evaluated : endsIn (sysExecv (System.start [oneSegment]) 1 [47, 97]) (fun first =>
      decide ((first.2.machine.proc 1).addrSpace.heapStart = 0x400002) &&
      endsIn (sysExecv first.2 1 [47, 98]) fun second => decide (second.1 = -5 ∧
        (second.2.machine.proc 1).addrSpace.heapStart = 0)) = true := by
    decide +kernel
  obtain ⟨⟨ret, s⟩, first, rest⟩ := exists_of_endsIn evaluated
  rw [Bool.and_eq_true] at rest
  obtain ⟨⟨ret', after⟩, second, check⟩ := exists_of_endsIn rest.2
  obtain ⟨error, cleared⟩ := of_decide_eq_true check
  have set := of_decide_eq_true rest.1
  refine ⟨ret, s, ret', after, first, set, second, error, cleared, ?_⟩
  intro unchanged
  rw [unchanged.space, set] at cleared
  cases cleared

end RecoverOs.Userprog
