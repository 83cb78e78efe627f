import RecoverOs.Logic.Amd64

namespace RecoverOs.Task.Switch

open Amd64

def kernelAddrBase : Word := 0xffff800000000000#64

def switchTo : List Instr := [
  .push .rbp,
  .mov .rsp .rbp,
  .store .rbx (-8) .rbp,
  .store .r12 (-16) .rbp,
  .store .r13 (-24) .rbp,
  .store .r14 (-32) .rbp,
  .store .r15 (-40) .rbp,
  .store .rdi (-48) .rbp,
  .store .rsi (-56) .rbp,
  -- the frame pointer goes to the first word of the PCB
  .store .rbp 0 .rdi,
  .load 8 .rsi .r13,
  .movImm kernelAddrBase .r12,
  .sub .r12 .r13,
  .movCr3 .r13,
  .mov .rsi .rdi,
  .mov .rsi .r12,
  .load 0 .r12 .rbp,
  .load (-8) .rbp .rbx,
  .load (-16) .rbp .r12,
  .load (-24) .rbp .r13,
  .load (-32) .rbp .r14,
  .load (-40) .rbp .r15,
  .load (-48) .rbp .rdi,
  .load (-56) .rbp .rsi,
  .leave,
  .ret]

def enter : List Instr := [.push .rbp, .mov .rsp .rbp]

def switchArea : List Slot := [⟨-8, .reg .rbx⟩, ⟨-16, .reg .r12⟩, ⟨-24, .reg .r13⟩, ⟨-32, .reg .r14⟩, ⟨-40, .reg .r15⟩,
  ⟨-48, .reg .rdi⟩, ⟨-56, .reg .rsi⟩]

def turnOver : List Instr := [.store .rbp 0 .rdi, .load 8 .rsi .r13, .movImm kernelAddrBase .r12, .sub .r12 .r13,
  .movCr3 .r13, .mov .rsi .rdi, .mov .rsi .r12, .load 0 .r12 .rbp]

theorem switchTo_parts :
    switchTo = enter ++ saves switchArea ++ turnOver ++ (restores switchArea ++ [.leave, .ret]) := rfl

def framePointer (s : Cpu) : Word := s.reg .rsp + BitVec.ofInt 64 (-8)

def frameLow (s : Cpu) : Word := framePointer s + BitVec.ofInt 64 (-56)

def savedMem (s : Cpu) : Memory :=
  storeAt (saveAll s.cr3 (framePointer s) s.part switchArea
    (storeAt s.mem s.cr3 8 (framePointer s) (s.reg .rbp).toNat)) s.cr3 8 (s.reg .rdi) (framePointer s).toNat

def Written (s : Cpu) (c : Cell) : Prop :=
  Covers s.cr3 (frameLow s) 64 c ∨ Covers s.cr3 (s.reg .rdi) 8 c

/-- The task with the PCB `pcb` has called `switch_to` in the state `c`, and its frame is in memory. -/
structure Suspended (mem : Memory) (pcb : Word) (c : Cpu) : Prop where
  rbp : loadAt mem c.cr3 8 pcb = (framePointer c).toNat
  pml4 : loadAt mem c.cr3 8 (pcb + 8) = (c.cr3 + kernelAddrBase).toNat
  link : loadAt mem c.cr3 8 (framePointer c) = (c.reg .rbp).toNat
  back : loadAt mem c.cr3 8 (framePointer c + 8) = c.top.toNat
  area : Holds mem c.cr3 (framePointer c) switchArea c.part

def Footprint (pcb : Word) (c : Cpu) (x : Cell) : Prop :=
  Covers c.cr3 (frameLow c) 72 x ∨ Covers c.cr3 pcb 16 x

def nextSpace (s : Cpu) : Word := BitVec.ofNat 64 (loadAt (savedMem s) s.cr3 8 (s.reg .rsi + 8)) - kernelAddrBase

def nextFrame (s : Cpu) : Word := BitVec.ofNat 64 (loadAt (savedMem s) (nextSpace s) 8 (s.reg .rsi))

structure Switched (s after : Cpu) : Prop where
  mem : after.mem = savedMem s
  cr3 : after.cr3 = nextSpace s
  star : after.star = s.star
  rsp : after.reg .rsp = nextFrame s + 16
  rbp : after.reg .rbp = BitVec.ofNat 64 (loadAt (savedMem s) (nextSpace s) 8 (nextFrame s))
  rip : after.rip = BitVec.ofNat 64 (loadAt (savedMem s) (nextSpace s) 8 (nextFrame s + 8))
  area : ∀ x ∈ switchArea, after.part x.part = loadAt (savedMem s) (nextSpace s) x.part.width (x.addr (nextFrame s))

variable {s c : Cpu} {mem : Memory} {pcb : Word}

theorem run_enter (s : Cpu) : s.run enter =
    { s with
      reg := Function.update (Function.update s.reg .rsp (framePointer s)) .rbp (framePointer s)
      mem := storeAt s.mem s.cr3 8 (framePointer s) (s.reg .rbp).toNat } := by
  simp [Cpu.run, enter, Cpu.exec, Cpu.push, Cpu.put, Cpu.setReg, Cpu.ea, framePointer]

theorem run_saved (s : Cpu) : s.run (enter ++ saves switchArea) =
    { s with
      reg := Function.update (Function.update s.reg .rsp (framePointer s)) .rbp (framePointer s)
      mem := saveAll s.cr3 (framePointer s) s.part switchArea
        (storeAt s.mem s.cr3 8 (framePointer s) (s.reg .rbp).toNat) } := by
  rw [run_append, run_saves, run_enter]
  rfl

theorem run_turnOver (s : Cpu) : ∃ t, s.run (enter ++ saves switchArea ++ turnOver) = t ∧ t.mem = savedMem s ∧
    t.cr3 = nextSpace s ∧ t.reg .rbp = nextFrame s ∧ t.star = s.star := by
  refine ⟨_, rfl, ?_⟩
  rw [run_append, run_saved]
  simp [Cpu.run, turnOver, Cpu.exec, Cpu.setReg, Cpu.put, Cpu.get, Cpu.ea, nextSpace, nextFrame, savedMem]

theorem switchTo_switched (s : Cpu) : Switched s (s.run switchTo) := by
  obtain ⟨t, ran, mem, cr3, rbp, star⟩ := run_turnOver s
  have restored := @run_restores switchArea t (by decide) (by decide)
  have left := run_leave_ret (t.run (restores switchArea))
  have frame : (t.run (restores switchArea)).reg .rbp = nextFrame s := by
    rw [← rbp]
    exact Cpu.reg_of_part (restored.kept (.reg .rbp) (by decide))
  rw [switchTo_parts, run_append, ran, run_append]
  constructor
  case mem => rw [left.mem, restored.mem, mem]
  case cr3 => rw [left.cr3, restored.cr3, cr3]
  case star => rw [left.star, restored.star, star]
  case rsp => rw [left.rsp, frame]
  case rbp => rw [left.rbp, frame, Cpu.get, restored.mem, restored.cr3, mem, cr3]
  case rip => rw [left.rip, frame, Cpu.get, restored.mem, restored.cr3, mem, cr3]
  case area =>
    intro x member
    rw [← rbp, ← mem, ← cr3, ← restored.loaded x member]
    simp only [switchArea, List.mem_cons, List.not_mem_nil, or_false] at member
    rcases member with rfl | rfl | rfl | rfl | rfl | rfl | rfl <;>
      exact congrArg BitVec.toNat (left.kept _ (by decide) (by decide))

theorem frame_add (s : Cpu) (d : Word) : framePointer s + d = frameLow s + (56 + d) := by
  rw [frameLow]
  have bottom : BitVec.ofInt 64 (-56) = -56#64 := rfl
  grind

theorem frame_top (s : Cpu) : framePointer s = frameLow s + 56 := by
  rw [frameLow]
  have bottom : BitVec.ofInt 64 (-56) = -56#64 := rfl
  grind

theorem slot_addr (s : Cpu) (x : Slot) : x.addr (framePointer s) = frameLow s + (56 + BitVec.ofInt 64 x.disp) :=
  frame_add s _

theorem switchArea_inside : ∀ x ∈ switchArea,
    (56 + BitVec.ofInt 64 x.disp).toNat + x.part.width ≤ 56 := by decide

theorem switchArea_apart : ∀ x ∈ switchArea, Apart (BitVec.ofInt 64 x.disp) x.part.width 0 8 ∧
    Apart (BitVec.ofInt 64 x.disp) x.part.width 8 8 := by decide

theorem Suspended.congr {other : Memory} (asleep : Suspended mem pcb c)
    (same : ∀ x, Footprint pcb c x → other x = mem x) : Suspended other pcb c := by
  have inFrame : ∀ x, Covers c.cr3 (frameLow c) 72 x → other x = mem x := fun x covers => same x (.inl covers)
  have inPcb : ∀ x, Covers c.cr3 pcb 16 x → other x = mem x := fun x covers => same x (.inr covers)
  have word : ∀ d : Word, (56 + d).toNat + 8 ≤ 72 →
      loadAt other c.cr3 8 (framePointer c + d) = loadAt mem c.cr3 8 (framePointer c + d) := by
    intro d inside
    rw [frame_add]
    exact loadAt_of_covers inFrame inside (by decide)
  have top : framePointer c = framePointer c + 0 := (BitVec.add_zero _).symm
  have first : pcb = pcb + 0 := (BitVec.add_zero _).symm
  constructor
  case rbp =>
    rw [← asleep.rbp, first]
    exact loadAt_of_covers inPcb (by decide) (by decide)
  case pml4 =>
    rw [← asleep.pml4]
    exact loadAt_of_covers inPcb (by decide) (by decide)
  case link =>
    rw [← asleep.link, top]
    exact word 0 (by decide)
  case back =>
    rw [← asleep.back]
    exact word 8 (by decide)
  case area =>
    apply asleep.area.congr
    intro x member
    rw [slot_addr]
    have inside := switchArea_inside x member
    exact loadAt_of_covers inFrame (by omega) (by decide)

theorem Written.slot {y : Slot} {x : Cell} (member : y ∈ switchArea)
    (covers : Covers s.cr3 (y.addr (framePointer s)) y.part.width x) : Written s x := by
  rw [slot_addr] at covers
  have inside := switchArea_inside y member
  exact .inl (covers.sub (by omega))

theorem savedMem_other {x : Cell} (outside : ¬ Written s x) : savedMem s x = s.mem x := by
  rw [savedMem, storeAt_other fun covers => outside (.inr covers), saveAll_other, storeAt_other]
  · intro covers
    rw [frame_top] at covers
    exact outside (.inl (covers.sub (by decide)))
  · intro y member covers
    exact outside (.slot member covers)

theorem Written.not_covers {space a : Word} {v : Nat} {x : Cell} (written : Written s x)
    (apart : Apart (frameLow s) 64 a v ∧ Apart (s.reg .rdi) 8 a v) : ¬ Covers space a v x := by
  rcases written with frame | pcb
  · exact apart.1.excludes frame
  · exact apart.2.excludes pcb

theorem savedMem_suspended (room : Apart (frameLow s) 72 (s.reg .rdi) 16)
    (pml4 : loadAt s.mem s.cr3 8 (s.reg .rdi + 8) = (s.cr3 + kernelAddrBase).toNat) :
    Suspended (savedMem s) (s.reg .rdi) s := by
  have pcbWord : ∀ e : Word, ∀ x ∈ switchArea, e.toNat + 8 ≤ 16 →
      Apart (x.addr (framePointer s)) x.part.width (s.reg .rdi + e) 8 := by
    intro e x member inside
    have slot := switchArea_inside x member
    rw [slot_addr]
    exact room.sub (by omega) inside x.part.width_pos (by decide)
  have zero : ∀ a : Word, a + 0 = a := fun a => BitVec.add_zero a
  have frame : ∀ d : Word, ∀ w, (56 + d).toNat + w ≤ 72 → 0 < w → Apart (s.reg .rdi) 8 (framePointer s + d) w := by
    intro d w inside some_width
    rw [frame_add, ← zero (s.reg .rdi)]
    exact (room.sub inside (by decide) some_width (by decide)).symm
  have atTop : ∀ x ∈ switchArea, Apart (x.addr (framePointer s)) x.part.width (framePointer s) 8 := by
    intro x member
    have apart := (apart_add (framePointer s) _ _).mpr (switchArea_apart x member).1
    rwa [zero] at apart
  constructor
  case rbp =>
    rw [savedMem, loadAt_storeAt _ _ _ _ (by decide)]
    exact Nat.mod_eq_of_lt (framePointer s).isLt
  case pml4 =>
    rw [savedMem, loadAt_storeAt_apart, loadAt_saveAll_apart (pcbWord 8 · · (by decide)), loadAt_storeAt_apart, pml4]
    · rw [frame_top]
      exact room.sub (by decide) (by decide) (by decide) (by decide)
    · have own := (apart_add (s.reg .rdi) 0 8).mpr (by decide : Apart 0 8 8 8)
      rwa [zero] at own
  case link =>
    have apart := frame 0 8 (by decide) (by decide)
    rw [zero] at apart
    rw [savedMem, loadAt_storeAt_apart apart, loadAt_saveAll_apart atTop, loadAt_storeAt _ _ _ _ (by decide)]
    exact Nat.mod_eq_of_lt (s.reg .rbp).isLt
  case back =>
    have apart := (apart_add (framePointer s) 0 8).mpr (by decide : Apart 0 8 8 8)
    rw [zero] at apart
    have stack : framePointer s + 8 = s.reg .rsp := by
      have eight : BitVec.ofInt 64 (-8) = -8#64 := rfl
      rw [framePointer, eight]
      grind
    rw [savedMem, loadAt_storeAt_apart (frame 8 8 (by decide) (by decide)), loadAt_saveAll_apart,
      loadAt_storeAt_apart apart, stack, Cpu.top, Cpu.get, word_of_load]
    exact fun x member => (apart_add (framePointer s) _ _).mpr (switchArea_apart x member).2
  case area =>
    apply (saveAll_holds (by decide) fun x _ => s.part_lt x.part).congr
    intro x member
    have slot := switchArea_inside x member
    rw [savedMem, loadAt_storeAt_apart]
    exact frame _ _ (by omega) x.part.width_pos

def Upper (pcb : Word) : Prop := ∀ i < 16, (pcb + BitVec.ofNat 64 i).msb = true

instance (pcb : Word) : Decidable (Upper pcb) := inferInstanceAs (Decidable (∀ i < 16, _))

/-- To the task that is switched to, its own call of `switch_to` has returned. -/
theorem Suspended.returns {own : Cell → Prop} (asleep : Suspended (savedMem s) (s.reg .rsi) c)
    (upper : Upper (s.reg .rsi)) (star : s.star = c.star) (mem : ∀ x, own x → savedMem s x = c.mem x) :
    Returns own c (s.run switchTo) := by
  have switched := switchTo_switched s
  have space : nextSpace s = c.cr3 := by
    have second : ∀ i < 8, (s.reg .rsi + 8 + BitVec.ofNat 64 i).msb = true := by
      intro i less
      rw [BitVec.add_assoc]
      have sum : (8 : Word) + BitVec.ofNat 64 i = BitVec.ofNat 64 (8 + i) := (BitVec.ofNat_add 8 i).symm
      rw [sum]
      exact upper (8 + i) (by omega)
    rw [nextSpace, @loadAt_upper _ s.cr3 c.cr3 _ _ second, asleep.pml4, BitVec.ofNat_toNat, BitVec.setWidth_eq]
    grind
  have frame : nextFrame s = framePointer c := by
    rw [nextFrame, space, asleep.rbp, BitVec.ofNat_toNat, BitVec.setWidth_eq]
  have slot : ∀ r, (∃ x ∈ switchArea, x.part = .reg r) → (s.run switchTo).reg r = c.reg r := by
    intro r found
    obtain ⟨x, member, same⟩ := found
    apply Cpu.reg_of_part
    rw [← same, switched.area x member, space, frame]
    exact asleep.area x member
  constructor
  case rip => rw [switched.rip, space, frame, asleep.back, BitVec.ofNat_toNat, BitVec.setWidth_eq]
  case rsp =>
    have eight : BitVec.ofInt 64 (-8) = -8#64 := rfl
    rw [switched.rsp, frame, framePointer, eight]
    grind
  case kept =>
    intro r member
    simp only [calleeSaved, List.mem_cons, List.not_mem_nil, or_false] at member
    rcases member with rfl | rfl | rfl | rfl | rfl | rfl
    · exact slot _ (by decide)
    · rw [switched.rbp, space, frame, asleep.link, BitVec.ofNat_toNat, BitVec.setWidth_eq]
    · exact slot _ (by decide)
    · exact slot _ (by decide)
    · exact slot _ (by decide)
    · exact slot _ (by decide)
  case cr3 => rw [switched.cr3, space]
  case star => rw [switched.star, star]
  case mem =>
    intro x mine
    rw [switched.mem]
    exact mem x mine

section Runs

variable {Task : Type} (pcb : Task → Word) (own : Task → Cell → Prop)

/-- The processor, the running task, and for every other task the state in which it called `switch_to`. -/
structure Switching (Task : Type) where
  cpu : Cpu
  current : Task
  saved : Task → Option Cpu

/-- What must stay as it is while a task is suspended: its frame, the two words of its PCB and its own cells. -/
def Claims (t : Task) (c : Cpu) (x : Cell) : Prop := Footprint (pcb t) c x ∨ own t x

/-- The processor goes from one state to another without touching a suspended task. -/
structure Keeps (d : Switching Task) (after : Cpu) : Prop where
  mem : ∀ t c, d.saved t = some c → ∀ x, Claims pcb own t c x → after.mem x = d.cpu.mem x
  star : after.star = d.cpu.star

/-- `schedule` calls `switch_to` on a stack of its own task. -/
structure Calls (d : Switching Task) (next : Task) : Prop where
  leaves : d.cpu.reg .rdi = pcb d.current
  enters : d.cpu.reg .rsi = pcb next
  alive : next = d.current ∨ d.saved next ≠ none
  pml4 : loadAt d.cpu.mem d.cpu.cr3 8 (pcb d.current + 8) = (d.cpu.cr3 + kernelAddrBase).toNat
  room : Apart (frameLow d.cpu) 72 (pcb d.current) 16
  stack : ∀ x, Written d.cpu x → ¬ own d.current x
  others : ∀ t c, d.saved t = some c → ∀ x, Written d.cpu x → ¬ Claims pcb own t c x

structure Resumable (d : Switching Task) : Prop where
  frame : ∀ t c, d.saved t = some c → Suspended d.cpu.mem (pcb t) c
  own : ∀ t c, d.saved t = some c → ∀ x, own t x → d.cpu.mem x = c.mem x
  star : ∀ t c, d.saved t = some c → d.cpu.star = c.star

variable {pcb : Task → Word} {own : Task → Cell → Prop} {d after : Switching Task}

theorem Resumable.work {next : Cpu} (inv : Resumable pcb own d) (keeps : Keeps pcb own d next) :
    Resumable pcb own { d with cpu := next } where
  frame t c asleep := (inv.frame t c asleep).congr fun x foot => keeps.mem t c asleep x (.inl foot)
  own t c asleep x mine := (keeps.mem t c asleep x (.inr mine)).trans (inv.own t c asleep x mine)
  star t c asleep := keeps.star.trans (inv.star t c asleep)

variable [DecidableEq Task]

def Switching.saving (d : Switching Task) : Task → Option Cpu := Function.update d.saved d.current (some d.cpu)

/-- `work` is anything that the running task does, and `create` gives a new task the frame that it starts from. -/
inductive Step (pcb : Task → Word) (own : Task → Cell → Prop) : Switching Task → Switching Task → Prop where
  | work {d : Switching Task} {after : Cpu} (keeps : Keeps pcb own d after) : Step pcb own d { d with cpu := after }
  | create {d : Switching Task} {after c : Cpu} {t : Task} (fresh : d.saved t = none) (other : t ≠ d.current)
      (keeps : Keeps pcb own d after) (frame : Suspended after.mem (pcb t) c) (star : after.star = c.star)
      (mem : ∀ x, own t x → after.mem x = c.mem x) :
      Step pcb own d { d with cpu := after, saved := Function.update d.saved t (some c) }
  | switch {d : Switching Task} {next : Task} (calls : Calls pcb own d next) :
      Step pcb own d { cpu := d.cpu.run switchTo, current := next, saved := Function.update d.saving next none }

inductive Reachable (pcb : Task → Word) (own : Task → Cell → Prop) (start : Cpu) (main : Task) :
    Switching Task → Prop where
  | start : Reachable pcb own start main ⟨start, main, fun _ => none⟩
  | step {d after : Switching Task} (before : Reachable pcb own start main d) (step : Step pcb own d after) :
      Reachable pcb own start main after

/-- After the first half of `switch_to` the task that leaves can be switched to as well. -/
theorem Resumable.saving {next : Task} (inv : Resumable pcb own d) (calls : Calls pcb own d next) {t : Task} {c : Cpu}
    (asleep : d.saving t = some c) : Suspended (savedMem d.cpu) (pcb t) c ∧
      (∀ x, own t x → savedMem d.cpu x = c.mem x) ∧ d.cpu.star = c.star := by
  by_cases leaves : t = d.current
  · rw [Switching.saving, leaves, Function.update_self] at asleep
    cases asleep
    rw [leaves]
    refine ⟨?_, fun x mine => savedMem_other fun written => calls.stack x written mine, rfl⟩
    rw [← calls.leaves]
    apply savedMem_suspended
    · rw [calls.leaves]
      exact calls.room
    · rw [calls.leaves]
      exact calls.pml4
  · rw [Switching.saving, Function.update_of_ne leaves] at asleep
    have same : ∀ x, Claims pcb own t c x → savedMem d.cpu x = d.cpu.mem x :=
      fun x claims => savedMem_other fun written => calls.others t c asleep x written claims
    exact ⟨(inv.frame t c asleep).congr fun x foot => same x (.inl foot),
      fun x mine => (same x (.inr mine)).trans (inv.own t c asleep x mine), inv.star t c asleep⟩

theorem Resumable.step (inv : Resumable pcb own d) (step : Step pcb own d after) : Resumable pcb own after := by
  cases step with
  | work keeps => exact inv.work keeps
  | create fresh other keeps frame star mem =>
    rename_i c t
    have kept := inv.work keeps
    constructor
    case frame =>
      intro u e asleep
      by_cases new : u = t
      · simp only [new, Function.update_self, Option.some.injEq] at asleep
        rw [new, ← asleep]
        exact frame
      · simp only [Function.update_of_ne new] at asleep
        exact kept.frame u e asleep
    case own =>
      intro u e asleep
      by_cases new : u = t
      · simp only [new, Function.update_self, Option.some.injEq] at asleep
        rw [new, ← asleep]
        exact mem
      · simp only [Function.update_of_ne new] at asleep
        exact kept.own u e asleep
    case star =>
      intro u e asleep
      by_cases new : u = t
      · simp only [new, Function.update_self, Option.some.injEq] at asleep
        rw [← asleep]
        exact star
      · simp only [Function.update_of_ne new] at asleep
        exact kept.star u e asleep
  | switch calls =>
    rename_i next
    have switched := switchTo_switched d.cpu
    have saving : ∀ u e, Function.update d.saving next none u = some e → d.saving u = some e := by
      intro u e asleep
      by_cases goes : u = next
      · rw [goes, Function.update_self] at asleep
        cases asleep
      · rwa [Function.update_of_ne goes] at asleep
    constructor
    case frame =>
      intro u e asleep
      have saved := inv.saving calls (saving u e asleep)
      show Suspended (d.cpu.run switchTo).mem (pcb u) e
      rw [switched.mem]
      exact saved.1
    case own =>
      intro u e asleep x mine
      have saved := inv.saving calls (saving u e asleep)
      show (d.cpu.run switchTo).mem x = e.mem x
      rw [switched.mem]
      exact saved.2.1 x mine
    case star =>
      intro u e asleep
      have saved := inv.saving calls (saving u e asleep)
      exact switched.star.trans saved.2.2

theorem Reachable.resumable {start : Cpu} {main : Task} (reachable : Reachable pcb own start main d) :
    Resumable pcb own d := by
  induction reachable with
  | start =>
    constructor
    case frame => exact fun t c asleep => by cases asleep
    case own => exact fun t c asleep => by cases asleep
    case star => exact fun t c asleep => by cases asleep
  | step _ step inv => exact inv.step step

/-- `switch_to` returns to each task as a function does that it has called: with its stack pointer, its callee-saved
    registers, its address space and its own memory. In between the others may do anything but write the frame, the two
    words of the PCB and the own memory of a suspended task (`Keeps`). -/
theorem switch_returns (start : Cpu) (main : Task) (d : Switching Task) (next : Task)
    (reachable : Reachable pcb own start main d) (upper : ∀ t, Upper (pcb t)) (calls : Calls pcb own d next) :
    ∃ c, (c = d.cpu ∧ next = d.current ∨ d.saved next = some c ∧ next ≠ d.current) ∧
      Returns (own next) c (d.cpu.run switchTo) := by
  have saved : ∃ c, (c = d.cpu ∧ next = d.current ∨ d.saved next = some c ∧ next ≠ d.current) ∧
      d.saving next = some c := by
    by_cases stays : next = d.current
    · exact ⟨d.cpu, .inl ⟨rfl, stays⟩, by rw [Switching.saving, stays, Function.update_self]⟩
    · obtain ⟨c, found⟩ := Option.ne_none_iff_exists'.mp (calls.alive.resolve_left stays)
      exact ⟨c, .inr ⟨found, stays⟩, by rw [Switching.saving, Function.update_of_ne stays, found]⟩
  obtain ⟨c, which, asleep⟩ := saved
  have inv := reachable.resumable
  have ready := inv.saving calls asleep
  rw [← calls.enters] at ready
  refine ⟨c, which, ready.1.returns ?_ ready.2.2 ready.2.1⟩
  rw [calls.enters]
  exact upper next

def bareCpu (rsp rdi rsi : Word) : Cpu :=
  blank 0x800000000000#64 fun r => if r = .rsp then rsp else if r = .rdi then rdi else if r = .rsi then rsi else 0

def twoPcbs (t : Bool) : Word := if t then 0xffff800000105000#64 else 0xffff800000104000#64

def wordOfFirst (t : Bool) (x : Cell) : Prop := t = false ∧ Covers 0x800000000000#64 0xffff800000300000#64 8 x

/-- The first task holds 42 in its word and 7 in `rbx`, and switches to a task that starts with a frame of zeros at
    address 0. That task stores a word and switches back. -/
theorem switch_returns_closed : ∃ (d : Switching Bool) (e : Cpu), d.current = true ∧ d.saved false = some e ∧
    loadAt d.cpu.mem d.cpu.cr3 8 0xffff800000310000#64 = 99 ∧ e.reg .rbx = 7 ∧
    loadAt e.mem e.cr3 8 0xffff800000300000#64 = 42 ∧
    ∃ c, (c = d.cpu ∧ false = d.current ∨ d.saved false = some c ∧ false ≠ d.current) ∧
      Returns (wordOfFirst false) c (d.cpu.run switchTo) := by
  let first := bareCpu 0xffff800000200000#64 (twoPcbs false) (twoPcbs true)
  let here : Cpu := { first.setReg .rbx 7 with mem := storeAt first.mem first.cr3 8 0xffff800000300000#64 42 }
  let second := bareCpu 0xffff800000280000#64 (twoPcbs true) (twoPcbs false)
  let there : Cpu := { second with mem := storeAt (here.run switchTo).mem second.cr3 8 0xffff800000310000#64 99 }
  let born := Function.update (fun _ => none) true (some (bareCpu 8 0 0))
  let left := Function.update (Function.update born false (some here)) true none
  have keeps : Keeps twoPcbs wordOfFirst ⟨here, false, fun _ => none⟩ here := by
    refine ⟨?_, rfl⟩
    intro t c asleep
    cases asleep
  have frame : Suspended here.mem (twoPcbs true) (bareCpu 8 0 0) := by
    constructor
    case rbp => decide +kernel
    case pml4 => decide +kernel
    case link => decide +kernel
    case back => decide +kernel
    case area =>
      intro x member
      simp only [switchArea, List.mem_cons, List.not_mem_nil, or_false] at member
      rcases member with rfl | rfl | rfl | rfl | rfl | rfl | rfl <;> decide +kernel
  have created : Reachable twoPcbs wordOfFirst here false ⟨here, false, born⟩ :=
    .step .start (.create rfl (by decide) keeps frame rfl fun _ mine => by cases mine.1)
  have leaves : Calls twoPcbs wordOfFirst ⟨here, false, born⟩ true := by
    constructor
    case leaves => rfl
    case enters => rfl
    case alive => simp [born]
    case pml4 => decide +kernel
    case room => decide
    case stack => exact fun x written mine => written.not_covers (by decide) mine.2
    case others =>
      intro t c asleep x written claims
      cases t with
      | false => simp [born] at asleep
      | true =>
        simp only [born, Function.update_self, Option.some.injEq] at asleep
        subst c
        rcases claims with (frame | pcb) | mine
        · exact written.not_covers (by decide) frame
        · exact written.not_covers (by decide) pcb
        · cases mine.1
  -- the second task stores its word outside everything that belongs to the first
  have works : Keeps twoPcbs wordOfFirst ⟨here.run switchTo, true, left⟩ there := by
    refine ⟨?_, rfl⟩
    intro t c asleep x claims
    cases t with
    | true => simp [left] at asleep
    | false =>
      simp only [left, Function.update_of_ne Bool.false_ne_true, Function.update_self, Option.some.injEq] at asleep
      subst c
      apply storeAt_other
      rcases claims with (frame | pcb) | mine
      · exact Apart.excludes (by decide) frame
      · exact Apart.excludes (by decide) pcb
      · exact Apart.excludes (by decide) mine.2
  have back : Calls twoPcbs wordOfFirst ⟨there, true, left⟩ false := by
    constructor
    case leaves => rfl
    case enters => rfl
    case alive => simp [left]
    case pml4 => decide +kernel
    case room => decide
    case stack => exact fun x written mine => by cases mine.1
    case others =>
      intro t c asleep x written claims
      cases t with
      | true => simp [left] at asleep
      | false =>
        simp only [left, Function.update_of_ne Bool.false_ne_true, Function.update_self, Option.some.injEq] at asleep
        subst c
        rcases claims with (frame | pcb) | mine
        · exact written.not_covers (by decide) frame
        · exact written.not_covers (by decide) pcb
        · exact written.not_covers (by decide) mine.2
  have reachable : Reachable twoPcbs wordOfFirst here false ⟨there, true, left⟩ := .step (.step created (.switch leaves)) (.work works)
  refine ⟨⟨there, true, left⟩, here, rfl, ?_, ?_, rfl, ?_, switch_returns here false _ false reachable ?_ back⟩
  · simp [left]
  · decide +kernel
  · decide +kernel
  · decide +kernel

end Runs

end RecoverOs.Task.Switch
