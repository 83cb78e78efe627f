import RecoverOs.Kernel.Interrupt
import RecoverOs.Task.Switch

namespace RecoverOs.Task.Switch

open Amd64 Kernel

def selectorKData : BitVec 16 := 0x10
def selectorUCode : BitVec 16 := 0x30 + 3
def selectorUData : BitVec 16 := 0x28 + 3

/-- The offsets of `switch_stack.rbp` and of the struct `intr_stack` in the page of a task. -/
def switchRbp : Int := 472
def intrStackStart : Int := 4096 - 80

/-- The stores of `create_task_envi` to the page of the task, in their order. -/
def taskEnvi (task stack entry args intrExitAt : Word) (su : Bool) : List Field := [
  ⟨0, 8, (task + BitVec.ofInt 64 switchRbp).toNat⟩,
  ⟨switchRbp + 8, 8, intrExitAt.toNat⟩,
  ⟨switchRbp, 8, (task + BitVec.ofInt 64 (intrStackStart + 24)).toNat⟩,
  ⟨intrStackStart + 56, 8, 0x202⟩,
  ⟨intrStackStart + 48, 8, (if su then selectorUCode else selectorKCode).toNat⟩,
  ⟨intrStackStart + 72, 8, (if su then selectorUData else selectorKData).toNat⟩,
  ⟨intrStackStart, 8, 0⟩,
  ⟨intrStackStart + 64, 8, stack.toNat⟩,
  ⟨intrStackStart + 40, 8, entry.toNat⟩,
  ⟨intrStackStart + 16, 8, args.toNat⟩]

def createTaskEnvi (mem : Memory) (space task stack entry args intrExitAt : Word) (su : Bool) : Memory :=
  writeAll space task (taskEnvi task stack entry args intrExitAt su) mem

def taskShapes : List (Int × Nat) := [(0, 8), (480, 8), (472, 8), (4072, 8), (4064, 8), (4088, 8), (4016, 8), (4080, 8),
  (4056, 8), (4032, 8)]

theorem taskEnvi_shapes (task stack entry args intrExitAt : Word) (su : Bool) :
    (taskEnvi task stack entry args intrExitAt su).map Field.shape = taskShapes := rfl

theorem taskShapes_apart : ShapesApart taskShapes := by decide

theorem taskShapes_pml4 : ∀ x ∈ taskShapes, Apart (BitVec.ofInt 64 x.1) x.2 8 8 := by decide

/-- The state in which the new task would have called `switch_to` to get these frames. -/
def firstCall (mem : Memory) (space task star : Word) : Cpu where
  reg r := match r with
    | .rsp => task + BitVec.ofInt 64 (switchRbp + 8)
    | .rbp => BitVec.ofNat 64 (loadAt mem space 8 (task + BitVec.ofInt 64 switchRbp))
    | .rbx => BitVec.ofNat 64 (loadAt mem space 8 (task + BitVec.ofInt 64 (switchRbp - 8)))
    | .r12 => BitVec.ofNat 64 (loadAt mem space 8 (task + BitVec.ofInt 64 (switchRbp - 16)))
    | .r13 => BitVec.ofNat 64 (loadAt mem space 8 (task + BitVec.ofInt 64 (switchRbp - 24)))
    | .r14 => BitVec.ofNat 64 (loadAt mem space 8 (task + BitVec.ofInt 64 (switchRbp - 32)))
    | .r15 => BitVec.ofNat 64 (loadAt mem space 8 (task + BitVec.ofInt 64 (switchRbp - 40)))
    | .rdi => BitVec.ofNat 64 (loadAt mem space 8 (task + BitVec.ofInt 64 (switchRbp - 48)))
    | .rsi => BitVec.ofNat 64 (loadAt mem space 8 (task + BitVec.ofInt 64 (switchRbp - 56)))
    | _ => 0
  seg := fun _ => 0
  rip := 0
  rflags := 0
  cr3 := space
  star := star
  lstar := 0
  mem := mem
  outs := []

variable {mem : Memory} {space task stack entry args intrExitAt star : Word} {su : Bool}

theorem firstCall_suspended (rbp : loadAt mem space 8 task = (task + BitVec.ofInt 64 switchRbp).toNat)
    (pml4 : loadAt mem space 8 (task + 8) = (space + kernelAddrBase).toNat) :
    Suspended mem task (firstCall mem space task star) := by
  have pointer : framePointer (firstCall mem space task star) = task + BitVec.ofInt 64 switchRbp := by
    rw [framePointer, firstCall, BitVec.add_assoc]
    rfl
  constructor
  case rbp => rw [pointer]; exact rbp
  case pml4 => exact pml4
  case link =>
    rw [pointer]
    exact (word_of_load mem space _).symm
  case back =>
    rw [pointer, BitVec.add_assoc]
    exact (word_of_load mem space _).symm
  case area =>
    intro x member
    rw [pointer]
    simp only [switchArea, List.mem_cons, List.not_mem_nil, or_false] at member
    rcases member with rfl | rfl | rfl | rfl | rfl | rfl | rfl <;>
      · rw [Slot.addr, BitVec.add_assoc]
        exact (word_of_load mem space _).symm

def IntrStackCells (space task : Word) (c : Cell) : Prop := Covers space (task + BitVec.ofInt 64 intrStackStart) 80 c

theorem taskEnvi_fits : ∀ f ∈ taskEnvi task stack entry args intrExitAt su, f.value < 256 ^ f.width := by
  intro f member
  simp only [taskEnvi, List.mem_cons, List.not_mem_nil, or_false] at member
  have short : ∀ n : BitVec 16, n.toNat < 256 ^ 8 := fun n => Nat.lt_of_lt_of_le n.isLt (by decide)
  rcases member with rfl | rfl | rfl | rfl | rfl | rfl | rfl | rfl | rfl | rfl
  · exact BitVec.isLt _
  · exact intrExitAt.isLt
  · exact BitVec.isLt _
  · decide
  · exact short _
  · exact short _
  · decide
  · exact stack.isLt
  · exact entry.isLt
  · exact args.isLt

def TaskWords (mem : Memory) (space task stack entry args intrExitAt : Word) (su : Bool) : Prop :=
  ∀ f ∈ taskEnvi task stack entry args intrExitAt su, loadAt mem space f.width (f.addr task) = f.value

theorem createTaskEnvi_words : TaskWords (createTaskEnvi mem space task stack entry args intrExitAt su) space task stack
    entry args intrExitAt su := by
  intro f member
  apply loadAt_writeAll _ _ taskEnvi_fits member
  · rw [taskEnvi_shapes]
    exact taskShapes_apart
  · intro g listed
    have inside := List.mem_map_of_mem (f := Field.shape) listed
    rw [taskEnvi_shapes] at inside
    exact (by decide : ∀ x ∈ taskShapes, x.2 ≤ 8) g.shape inside

theorem TaskWords.suspended (words : TaskWords mem space task stack entry args intrExitAt su)
    (pml4 : loadAt mem space 8 (task + 8) = (space + kernelAddrBase).toNat) :
    Suspended mem task (firstCall mem space task star) := by
  have stored := words ⟨0, 8, (task + BitVec.ofInt 64 switchRbp).toNat⟩ (by simp [taskEnvi])
  have first : Field.addr ⟨0, 8, (task + BitVec.ofInt 64 switchRbp).toNat⟩ task = task := BitVec.add_zero task
  rw [first] at stored
  exact firstCall_suspended stored pml4

theorem createTaskEnvi_suspended (pml4 : loadAt mem space 8 (task + 8) = (space + kernelAddrBase).toNat) :
    Suspended (createTaskEnvi mem space task stack entry args intrExitAt su) task
      (firstCall (createTaskEnvi mem space task stack entry args intrExitAt su) space task star) := by
  apply createTaskEnvi_words.suspended
  rw [createTaskEnvi, loadAt_writeAll_apart, pml4]
  intro f member
  have inside := List.mem_map_of_mem (f := Field.shape) member
  rw [taskEnvi_shapes] at inside
  exact (apart_add task (BitVec.ofInt 64 f.disp) 8).mpr (taskShapes_pml4 f.shape inside)

/-- A function is entered with one argument, and the processor is in the mode of its task. -/
structure Starts (after : Cpu) (space stack entry args : Word) (su : Bool) : Prop where
  rip : after.rip = entry
  rdi : after.reg .rdi = args
  rsp : after.reg .rsp = stack
  rflags : after.rflags = 0x202
  cs : after.seg .cs = if su then selectorUCode else selectorKCode
  ss : after.seg .ss = if su then selectorUData else selectorKData
  data : ∀ g, g ≠ .cs → g ≠ .ss → after.seg g = 0
  cr3 : after.cr3 = space

def intrStackRbp (task : Word) : Word := task + BitVec.ofInt 64 (intrStackStart + 24)

theorem firstCall_rbp {own : Cell → Prop} {v : Cpu} (words : TaskWords mem space task stack entry args intrExitAt su)
    (returned : Returns own (firstCall mem space task star) v) : v.reg .rbp = intrStackRbp task := by
  have stored := words ⟨switchRbp, 8, (intrStackRbp task).toNat⟩ (by simp [taskEnvi, intrStackRbp])
  rw [returned.kept .rbp (by decide)]
  exact (congrArg (BitVec.ofNat 64) stored).trans (by rw [BitVec.ofNat_toNat, BitVec.setWidth_eq])

theorem firstCall_word {own : Cell → Prop} {v : Cpu} {disp : Int} {width : Nat}
    (returned : Returns own (firstCall mem space task star) v) (page : ∀ c, IntrStackCells space task c → own c)
    (inside : (BitVec.ofInt 64 (disp - intrStackStart)).toNat + width ≤ 80) :
    loadAt v.mem v.cr3 width (task + BitVec.ofInt 64 disp) = loadAt mem space width (task + BitVec.ofInt 64 disp) := by
  have addr : task + BitVec.ofInt 64 disp =
      task + BitVec.ofInt 64 intrStackStart + BitVec.ofInt 64 (disp - intrStackStart) := by
    rw [BitVec.add_assoc, ← BitVec.ofInt_add]
    congr 2
    omega
  have same : v.cr3 = space := returned.cr3
  rw [same, addr]
  exact loadAt_of_covers (fun c covers => returned.mem c (page c covers)) inside (by decide)

theorem firstCall_starts {own : Cell → Prop} {v : Cpu}
    (words : TaskWords mem space task stack entry args intrExitAt su)
    (returned : Returns own (firstCall mem space task star) v) (page : ∀ c, IntrStackCells space task c → own c) :
    v.rip = intrExitAt ∧ Starts (v.run intrExit) space stack entry args su := by
  have leaves := run_intrExit v
  have pointer := firstCall_rbp words returned
  have word : ∀ (k disp : Int) (n : Nat), ⟨disp, 8, n⟩ ∈ taskEnvi task stack entry args intrExitAt su →
      (BitVec.ofInt 64 (disp - intrStackStart)).toNat + 8 ≤ 80 → disp = intrStackStart + 24 + k →
      loadAt v.mem v.cr3 8 (v.reg .rbp + BitVec.ofInt 64 k) = n := by
    intro k disp n member inside same
    rw [pointer, intrStackRbp, BitVec.add_assoc, ← BitVec.ofInt_add, ← same]
    exact (firstCall_word returned page inside).trans (words ⟨disp, 8, n⟩ member)
  refine ⟨?_, ?_⟩
  · rw [returned.rip]
    exact get_of_load (u := firstCall mem space task star)
      (words ⟨switchRbp + 8, 8, intrExitAt.toNat⟩ (by simp [taskEnvi]))
  · constructor
    case rip =>
      rw [leaves.rip]
      exact get_of_load (word 16 (intrStackStart + 40) _ (by simp [taskEnvi]) (by decide) (by decide))
    case rdi =>
      apply BitVec.eq_of_toNat_eq
      refine (leaves.slots ⟨-8, .reg .rdi⟩ (by decide)).trans ?_
      exact word (-8) (intrStackStart + 16) _ (by simp [taskEnvi]) (by decide) (by decide)
    case rsp =>
      rw [leaves.rsp]
      exact get_of_load (word 40 (intrStackStart + 64) _ (by simp [taskEnvi]) (by decide) (by decide))
    case rflags =>
      rw [leaves.rflags]
      exact get_of_load (word 32 (intrStackStart + 56) 0x202 (by simp [taskEnvi]) (by decide) (by decide))
    case cs =>
      rw [leaves.cs]
      exact get_of_short (word 24 (intrStackStart + 48) _ (by simp [taskEnvi]) (by decide) (by decide))
    case ss =>
      rw [leaves.ss]
      exact get_of_short (word 48 (intrStackStart + 72) _ (by simp [taskEnvi]) (by decide) (by decide))
    case data =>
      have none := word (-24) intrStackStart 0 (by simp [taskEnvi]) (by decide) (by decide)
      have zero : ∀ (disp : Int) (g : Seg) (k : Nat), ⟨disp, .seg g⟩ ∈ intrArea → k + 2 ≤ 8 →
          BitVec.ofInt 64 disp = BitVec.ofInt 64 (-24) + BitVec.ofNat 64 k → (v.run intrExit).seg g = 0 := by
        intro disp g k member inside same
        apply BitVec.eq_of_toNat_eq
        refine (leaves.slots ⟨disp, .seg g⟩ member).trans ?_
        rw [Slot.addr, same, ← BitVec.add_assoc]
        refine (loadAt_part inside).trans ?_
        rw [none, Nat.zero_div]
        rfl
      intro g code stacked
      cases g with
      | cs => exact absurd rfl code
      | ds => exact zero (-18) .ds 6 (by decide) (by decide) (by decide)
      | es => exact zero (-20) .es 4 (by decide) (by decide) (by decide)
      | fs => exact zero (-24) .fs 0 (by decide) (by decide) (by decide)
      | gs => exact zero (-22) .gs 2 (by decide) (by decide) (by decide)
      | ss => exact absurd rfl stacked
    case cr3 => exact leaves.cr3.trans returned.cr3

section Runs

variable {Task : Type} [DecidableEq Task] {pcb : Task → Word} {own : Task → Cell → Prop}

/-- However long a created task has waited, the first switch to it leads to `intr_exit`, and that to its function with
    its argument, stack, page table and mode. The others may do anything but write its frame, the two words of its PCB
    and the rest of its `intr_stack` (`Keeps`). -/
theorem new_task_starts (start : Cpu) (main : Task) (d : Switching Task) (next : Task) (mem : Memory)
    (space stack entry args intrExitAt star : Word) (su : Bool) (reachable : Reachable pcb own start main d)
    (upper : ∀ t, Upper (pcb t)) (calls : Calls pcb own d next) (other : next ≠ d.current)
    (created : d.saved next = some
      (firstCall (createTaskEnvi mem space (pcb next) stack entry args intrExitAt su) space (pcb next) star))
    (page : ∀ c, IntrStackCells space (pcb next) c → own next c) :
    (d.cpu.run switchTo).rip = intrExitAt ∧
      Starts ((d.cpu.run switchTo).run intrExit) space stack entry args su := by
  have saved : d.saving next = some
      (firstCall (createTaskEnvi mem space (pcb next) stack entry args intrExitAt su) space (pcb next) star) := by
    rw [Switching.saving, Function.update_of_ne other, created]
  have ready := reachable.resumable.saving calls saved
  have asleep : Suspended (savedMem d.cpu) (d.cpu.reg .rsi)
      (firstCall (createTaskEnvi mem space (pcb next) stack entry args intrExitAt su) space (pcb next) star) := by
    rw [calls.enters]
    exact ready.1
  have enters : Upper (d.cpu.reg .rsi) := by
    rw [calls.enters]
    exact upper next
  exact firstCall_starts createTaskEnvi_words (asleep.returns enters ready.2.2 ready.2.1) page

/-- The second of two tasks has been created, and the first one switches to it. -/
theorem new_task_starts_closed : ∃ d : Switching Bool,
    (d.cpu.run switchTo).rip = 0x1000 ∧
      Starts ((d.cpu.run switchTo).run intrExit) 0x800000000000#64 0x5000 0x2000 7 true := by
  let here := bareCpu 0xffff800000200000#64 (twoPcbs false) (twoPcbs true)
  let mem := createTaskEnvi here.mem 0x800000000000#64 (twoPcbs true) 0x5000 0x2000 7 0x1000 true
  let asleep := firstCall mem 0x800000000000#64 (twoPcbs true) 0
  let page : Bool → Cell → Prop := fun t x => t = true ∧ IntrStackCells 0x800000000000#64 (twoPcbs true) x
  have keeps : Keeps twoPcbs page ⟨here, false, fun _ => none⟩ { here with mem := mem } := by
    refine ⟨?_, rfl⟩
    intro t c none
    cases none
  have empty : (0x800000000000#64 + kernelAddrBase).toNat = 0 := by decide
  have frame : Suspended mem (twoPcbs true) asleep := by
    apply createTaskEnvi_suspended
    rw [empty]
    exact loadAt_blank _ _ _
  have reachable : Reachable twoPcbs page here false
      ⟨{ here with mem := mem }, false, Function.update (fun _ => none) true (some asleep)⟩ :=
    .step .start (.create rfl (by decide) keeps frame rfl fun _ _ => rfl)
  refine ⟨_, new_task_starts here false _ true here.mem _ _ _ _ _ 0 true reachable ?_ ?_ ?_ ?_ ?_⟩
  · decide +kernel
  · constructor
    case leaves => rfl
    case enters => rfl
    case alive => simp
    case pml4 =>
      have blank : loadAt mem 0x800000000000#64 8 (twoPcbs false + 8) = 0 := by
        refine (loadAt_writeAll_apart ?_).trans (loadAt_blank _ _ _)
        decide
      exact blank.trans empty.symm
    case room => decide
    case stack =>
      intro x written mine
      cases mine.1
    case others =>
      intro t c asleepNow x written claims
      cases t with
      | false => simp at asleepNow
      | true =>
        simp only [Function.update_self, Option.some.injEq] at asleepNow
        subst c
        rcases claims with (frame | pcb) | own
        · exact written.not_covers (by decide) frame
        · exact written.not_covers (by decide) pcb
        · exact written.not_covers (by decide) own.2
  · decide
  · simp [asleep, mem]
  · exact fun c covers => ⟨rfl, covers⟩

end Runs

end RecoverOs.Task.Switch
