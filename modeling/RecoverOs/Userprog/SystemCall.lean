import RecoverOs.Task.FirstRun

namespace RecoverOs.Userprog.SystemCall

open Amd64 Kernel Task.Switch

inductive SyscallNr where
  | sysRead | sysWrite | sysOpen | sysClose | sysStat | sysBrk | sysPipe | sysSchedYield | sysDup2 | sysClone | sysExecv
  | sysExit | sysWait | sysMkdir | sysRmdir | sysUnlink | sysMknode | sysClockGettime | sysTrial
  deriving DecidableEq, Repr

def SyscallNr.all : List SyscallNr := [.sysRead, .sysWrite, .sysOpen, .sysClose, .sysStat, .sysBrk, .sysPipe,
  .sysSchedYield, .sysDup2, .sysClone, .sysExecv, .sysExit, .sysWait, .sysMkdir, .sysRmdir, .sysUnlink, .sysMknode,
  .sysClockGettime, .sysTrial]

def SyscallNr.toNat (nr : SyscallNr) : Nat := SyscallNr.all.idxOf nr

inductive KernelFn where
  | sysRead | sysWrite | sysOpen | sysClose | sysStat | sysClone | sysExecv | sysWait | sysExit | sysPipe | sysDup2
  | sysBrk | sysMknod | sysUnlink | sysMkdir | sysRmdir | sysClockGettime | taskYield
  deriving DecidableEq, Repr

def syscallInit : List (SyscallNr × KernelFn) := [(.sysRead, .sysRead), (.sysWrite, .sysWrite), (.sysOpen, .sysOpen),
  (.sysClose, .sysClose), (.sysStat, .sysStat), (.sysClone, .sysClone), (.sysExecv, .sysExecv), (.sysWait, .sysWait),
  (.sysExit, .sysExit), (.sysPipe, .sysPipe), (.sysDup2, .sysDup2), (.sysBrk, .sysBrk), (.sysMknode, .sysMknod),
  (.sysUnlink, .sysUnlink), (.sysMkdir, .sysMkdir), (.sysRmdir, .sysRmdir), (.sysClockGettime, .sysClockGettime),
  (.sysSchedYield, .taskYield)]

def tableField (fn : KernelFn → Word) (x : SyscallNr × KernelFn) : Field := ⟨8 * (x.1.toNat : Int), 8, (fn x.2).toNat⟩

def tableMem (fn : KernelFn → Word) (space table : Word) (mem : Memory) : Memory :=
  writeAll space table (syscallInit.map (tableField fn)) mem

def starValue : Word := 0x0020000800000000#64

inductive LibFn where
  | read | write | open | close | stat | clone | execv | wait | exit | pipe | dup2 | brk | mknod | unlink | mkdir | rmdir
  | clockGettime | schedYield | trial
  deriving DecidableEq, Repr

def LibFn.number : LibFn → SyscallNr
  | .read => .sysRead
  | .write => .sysWrite
  | .open => .sysOpen
  | .close => .sysClose
  | .stat => .sysStat
  | .clone => .sysClone
  | .execv => .sysExecv
  | .wait => .sysWait
  | .exit => .sysExit
  | .pipe => .sysPipe
  | .dup2 => .sysDup2
  | .brk => .sysBrk
  | .mknod => .sysMknode
  | .unlink => .sysUnlink
  | .mkdir => .sysMkdir
  | .rmdir => .sysRmdir
  | .clockGettime => .sysClockGettime
  | .schedYield => .sysSchedYield
  | .trial => .sysTrial

/-- `_syscall`: `back` is the address behind the instruction. -/
def libCall (s : Cpu) (nr : SyscallNr) (back : Word) : Cpu :=
  (s.run [.mov .rcx .r10, .movImm (BitVec.ofNat 64 nr.toNat) .rax]).syscall back

def systemCall (table back : Word) : List Instr := [
  .push .rbp,
  .mov .rsp .rbp,
  .store .rax (-8) .rbp,
  .store .rcx (-16) .rbp,
  .store .r11 (-24) .rbp,
  .store .rbx (-32) .rbp,
  .store .r12 (-48) .rbp,
  .store .r13 (-56) .rbp,
  .store .r14 (-64) .rbp,
  .store .r15 (-72) .rbp,
  .subImm 72 .rsp,
  .movImm table .rax,
  .shlAt 3 (-8) .rbp,
  .addFrom (-8) .rbp .rax,
  .mov .r10 .rcx,
  .call .rax back]

def systemResult : List Instr := [.store .rax (-8) .rbp]

def systemRet : List Instr := [
  .load (-8) .rbp .rax,
  .load (-16) .rbp .rcx,
  .load (-24) .rbp .r11,
  .load (-32) .rbp .rbx,
  .load (-48) .rbp .r12,
  .load (-56) .rbp .r13,
  .load (-64) .rbp .r14,
  .load (-72) .rbp .r15,
  .leave,
  .sysretq]

def systemArea : List Slot := [⟨-8, .reg .rax⟩, ⟨-16, .reg .rcx⟩, ⟨-24, .reg .r11⟩, ⟨-32, .reg .rbx⟩, ⟨-48, .reg .r12⟩,
  ⟨-56, .reg .r13⟩, ⟨-64, .reg .r14⟩, ⟨-72, .reg .r15⟩]

def systemEnter : List Instr := [.push .rbp, .mov .rsp .rbp]

def systemDispatch (table back : Word) : List Instr :=
  [.subImm 72 .rsp, .movImm table .rax, .shlAt 3 (-8) .rbp, .addFrom (-8) .rbp .rax, .mov .r10 .rcx, .call .rax back]

theorem systemCall_parts (table back : Word) :
    systemCall table back = systemEnter ++ saves systemArea ++ systemDispatch table back := rfl

theorem systemRet_parts : systemRet = restores systemArea ++ [.leave, .sysretq] := rfl

structure LeavesSystem (v after : Cpu) : Prop where
  mem : after.mem = v.mem
  cr3 : after.cr3 = v.cr3
  rbp : after.reg .rbp = v.get (v.reg .rbp)
  rsp : after.reg .rsp = v.reg .rbp + 8
  slots : ∀ x ∈ systemArea, after.part x.part = loadAt v.mem v.cr3 x.part.width (x.addr (v.reg .rbp))
  rip : after.rip = after.reg .rcx
  rflags : after.rflags = sysretFlags (after.reg .r11)
  kept : ∀ r, r ≠ .rbp → r ≠ .rsp → .reg r ∉ systemArea.map Slot.part → after.reg r = v.reg r
  cs : after.seg .cs = ((v.star >>> 48).setWidth 16 + 16 ||| 3)
  ss : after.seg .ss = ((v.star >>> 48).setWidth 16 + 8 ||| 3)

theorem run_systemRet (v : Cpu) : LeavesSystem v (v.run systemRet) := by
  have restored := @run_restores systemArea v (by decide) (by decide)
  have left := run_leave_sysretq (v.run (restores systemArea))
  rw [systemRet_parts, run_append]
  generalize v.run (restores systemArea) = w at restored left
  have base : w.reg .rbp = v.reg .rbp := Cpu.reg_of_part (restored.kept (.reg .rbp) (by decide))
  constructor
  case mem => exact left.mem.trans restored.mem
  case cr3 => exact left.cr3.trans restored.cr3
  case rbp => rw [left.rbp, base, Cpu.get, Cpu.get, restored.mem, restored.cr3]
  case rsp => rw [left.rsp, base]
  case slots =>
    intro x member
    rw [← restored.loaded x member]
    have apart : ∀ y ∈ systemArea, ∃ r, y.part = .reg r ∧ r ≠ .rbp ∧ r ≠ .rsp := by
      simp [systemArea]
    obtain ⟨r, same, rbp, rsp⟩ := apart x member
    rw [same]
    exact congrArg BitVec.toNat (left.kept r rbp rsp)
  case rip => rw [left.rip, left.kept .rcx (by decide) (by decide)]
  case rflags => rw [left.rflags, left.kept .r11 (by decide) (by decide)]
  case kept =>
    intro r rbp rsp outside
    rw [left.kept r rbp rsp]
    exact Cpu.reg_of_part (restored.kept (.reg r) outside)
  case cs => rw [left.cs, restored.star]
  case ss => rw [left.ss, restored.star]

def systemPointer (s : Cpu) : Word := s.reg .rsp + BitVec.ofInt 64 (-8)

def SystemCells (space : Word) (s : Cpu) (c : Cell) : Prop :=
  Covers space (systemPointer s + BitVec.ofInt 64 (-72)) 64 c ∨ Covers space (systemPointer s) 8 c

def systemValue (s : Cpu) (back : Word) : Part → Nat
  | .reg .rcx => back.toNat
  | .reg .r11 => s.rflags.toNat
  | p => s.part p

structure SystemFrame (mem : Memory) (space : Word) (s : Cpu) (back : Word) : Prop where
  link : loadAt mem space 8 (systemPointer s) = (s.reg .rbp).toNat
  slots : ∀ x ∈ systemArea.tail, loadAt mem space 8 (x.addr (systemPointer s)) = systemValue s back x.part

structure AtSyscall (s : Cpu) (func back behind : Word) (t : Cpu) : Prop where
  rip : t.rip = func
  args : ∀ r ∈ [Reg.rdi, .rsi, .rdx, .rcx, .r8, .r9], t.reg r = s.reg r
  top : t.top = behind
  rbp : t.reg .rbp = systemPointer s
  cr3 : t.cr3 = s.cr3
  star : t.star = s.star
  cs : t.seg .cs = (s.star >>> 32).setWidth 16 &&& 0xfffc
  ss : t.seg .ss = (s.star >>> 32).setWidth 16 + 8
  frame : SystemFrame t.mem s.cr3 s back

def systemMem (s : Cpu) (nr : SyscallNr) (back : Word) : Memory :=
  saveAll s.cr3 (systemPointer s) (libCall s nr back).part systemArea
    (storeAt s.mem s.cr3 8 (systemPointer s) (s.reg .rbp).toNat)

theorem run_systemEnter (c : Cpu) : c.run (systemEnter ++ saves systemArea) =
    { c with
      reg := Function.update (Function.update c.reg .rsp (systemPointer c)) .rbp (systemPointer c)
      mem := saveAll c.cr3 (systemPointer c) c.part systemArea
        (storeAt c.mem c.cr3 8 (systemPointer c) (c.reg .rbp).toNat) } := by
  have entered : c.run systemEnter =
      { c with
        reg := Function.update (Function.update c.reg .rsp (systemPointer c)) .rbp (systemPointer c)
        mem := storeAt c.mem c.cr3 8 (systemPointer c) (c.reg .rbp).toNat } := by
    simp [Cpu.run, systemEnter, Cpu.exec, Cpu.push, Cpu.put, Cpu.setReg, Cpu.ea, systemPointer]
  rw [run_append, run_saves, entered]
  rfl

theorem libCall_reg (s : Cpu) (nr : SyscallNr) (back : Word) (r : Reg) : (libCall s nr back).reg r = match r with
    | .rax => BitVec.ofNat 64 nr.toNat
    | .rcx => back
    | .r10 => s.reg .rcx
    | .r11 => s.rflags
    | r => s.reg r := by
  cases r <;> rfl

theorem libCall_pointer (s : Cpu) (nr : SyscallNr) (back : Word) :
    systemPointer (libCall s nr back) = systemPointer s := by
  rw [systemPointer, libCall_reg]
  rfl

theorem run_systemSaved (s : Cpu) (nr : SyscallNr) (back : Word) :
    (libCall s nr back).run (systemEnter ++ saves systemArea) =
    { libCall s nr back with
      reg := Function.update (Function.update (libCall s nr back).reg .rsp (systemPointer s)) .rbp (systemPointer s)
      mem := systemMem s nr back } := by
  have space : (libCall s nr back).cr3 = s.cr3 := rfl
  have mem : (libCall s nr back).mem = s.mem := rfl
  have rbp : (libCall s nr back).reg .rbp = s.reg .rbp := libCall_reg s nr back .rbp
  rw [run_systemEnter, libCall_pointer, rbp, space, mem]
  rfl

theorem number_shifted (nr : SyscallNr) : BitVec.ofNat 64 nr.toNat <<< 3 = BitVec.ofNat 64 (8 * nr.toNat) := by
  apply BitVec.eq_of_toNat_eq
  rw [BitVec.toNat_shiftLeft, BitVec.toNat_ofNat, BitVec.toNat_ofNat, Nat.shiftLeft_eq]
  omega

structure Dispatched (w : Cpu) (table behind : Word) (t : Cpu) : Prop where
  mem : t.mem = storeAt (storeAt w.mem w.cr3 8 (w.ea (-8) .rbp) (w.get (w.ea (-8) .rbp) <<< 3).toNat) w.cr3 8
    (w.reg .rsp + BitVec.ofInt 64 (-80)) behind.toNat
  rip : t.rip = BitVec.ofNat 64 (loadAt (storeAt w.mem w.cr3 8 (w.ea (-8) .rbp) (w.get (w.ea (-8) .rbp) <<< 3).toNat)
    w.cr3 8 (table + w.get (w.ea (-8) .rbp) <<< 3))
  rsp : t.reg .rsp = w.reg .rsp + BitVec.ofInt 64 (-80)
  rcx : t.reg .rcx = w.reg .r10
  kept : ∀ r, r ≠ .rsp → r ≠ .rax → r ≠ .rcx → t.reg r = w.reg r
  seg : t.seg = w.seg
  cr3 : t.cr3 = w.cr3
  star : t.star = w.star

theorem run_systemDispatch (w : Cpu) (table behind : Word) :
    Dispatched w table behind (w.run (systemDispatch table behind)) := by
  constructor
  case mem =>
    simp [Cpu.run, systemDispatch, Cpu.exec, Cpu.ea, Cpu.push, Cpu.put, BitVec.sub_eq_add_neg, BitVec.add_assoc]
  case rip =>
    simp [Cpu.run, systemDispatch, Cpu.exec, Cpu.ea, Cpu.push, Cpu.get_put]
    rfl
  case rsp => simp [Cpu.run, systemDispatch, Cpu.exec, Cpu.ea, Cpu.push, BitVec.sub_eq_add_neg, BitVec.add_assoc]
  case rcx => simp [Cpu.run, systemDispatch, Cpu.exec, Cpu.ea, Cpu.push, Cpu.get_put]
  case kept =>
    intro r stack result count
    simp [Cpu.run, systemDispatch, Cpu.exec, Cpu.ea, Cpu.push, Cpu.get_put, stack, result, count]
  all_goals rfl

def systemShapes : List (Int × Nat) := systemArea.map Slot.shape

theorem systemShapes_apart : ShapesApart systemShapes := by decide

theorem systemArea_tail : ∀ x ∈ systemArea.tail, x.part.width = 8 ∧ (72 + BitVec.ofInt 64 x.disp).toNat + 8 ≤ 64 ∧
    Apart (BitVec.ofInt 64 (-8)) 8 (BitVec.ofInt 64 x.disp) 8 ∧
    Apart (BitVec.ofInt 64 (-80)) 8 (BitVec.ofInt 64 x.disp) 8 := by decide

theorem systemMem_slot {x : Slot} (s : Cpu) (nr : SyscallNr) (back : Word) (member : x ∈ systemArea) :
    loadAt (systemMem s nr back) s.cr3 x.part.width (x.addr (systemPointer s)) = (libCall s nr back).part x.part :=
  saveAll_holds systemShapes_apart (fun y _ => Cpu.part_lt _ y.part) x member

theorem systemMem_link (s : Cpu) (nr : SyscallNr) (back : Word) :
    loadAt (systemMem s nr back) s.cr3 8 (systemPointer s) = (s.reg .rbp).toNat := by
  have apart : ∀ x ∈ systemArea, Apart (BitVec.ofInt 64 x.disp) x.part.width 0 8 := by decide
  have fits : (s.reg .rbp).toNat % 256 ^ 8 = (s.reg .rbp).toNat := Nat.mod_eq_of_lt (s.reg .rbp).isLt
  rw [systemMem, loadAt_saveAll_apart, loadAt_storeAt _ _ _ _ (by decide), fits]
  · intro x member
    have slot := (apart_add (systemPointer s) _ _).mpr (apart x member)
    have zero : systemPointer s + 0 = systemPointer s := BitVec.add_zero _
    rw [zero] at slot
    exact slot

def calledMem (s : Cpu) (nr : SyscallNr) (back behind : Word) : Memory :=
  storeAt (storeAt (systemMem s nr back) s.cr3 8 (systemPointer s + BitVec.ofInt 64 (-8))
    (BitVec.ofNat 64 (8 * nr.toNat)).toNat) s.cr3 8 (systemPointer s + BitVec.ofInt 64 (-80)) behind.toNat

theorem calledMem_at {s : Cpu} {nr : SyscallNr} {back behind d : Word} (number : Apart (BitVec.ofInt 64 (-8)) 8 d 8)
    (link : Apart (BitVec.ofInt 64 (-80)) 8 d 8) : loadAt (calledMem s nr back behind) s.cr3 8 (systemPointer s + d) =
      loadAt (systemMem s nr back) s.cr3 8 (systemPointer s + d) := by
  rw [calledMem, loadAt_storeAt_apart ((apart_add _ _ _).mpr link), loadAt_storeAt_apart ((apart_add _ _ _).mpr number)]

theorem calledMem_frame (s : Cpu) (nr : SyscallNr) (back behind : Word) :
    SystemFrame (calledMem s nr back behind) s.cr3 s back := by
  constructor
  case link =>
    have zero : systemPointer s + 0 = systemPointer s := BitVec.add_zero _
    have same := @calledMem_at s nr back behind 0 (by decide) (by decide)
    rw [zero, systemMem_link] at same
    exact same
  case slots =>
    intro x member
    obtain ⟨width, _, number_apart, return_apart⟩ := systemArea_tail x member
    have held := systemMem_slot s nr back (List.mem_of_mem_tail member)
    rw [width] at held
    rw [Slot.addr, calledMem_at number_apart return_apart]
    refine held.trans ?_
    simp only [systemArea, List.tail_cons, List.mem_cons, List.not_mem_nil, or_false] at member
    rcases member with rfl | rfl | rfl | rfl | rfl | rfl | rfl <;>
      exact congrArg BitVec.toNat (libCall_reg s nr back _)

def systemLow (s : Cpu) : Word := systemPointer s + BitVec.ofInt 64 (-80)

theorem systemPointer_add (s : Cpu) (d : Word) : systemPointer s + d = systemLow s + (80 + d) := by
  have bottom : BitVec.ofInt 64 (-80) = -80#64 := rfl
  rw [systemLow, bottom]
  grind

theorem SystemCells.low {space : Word} {s : Cpu} {c : Cell} (cells : SystemCells space s c) :
    Covers space (systemLow s) 88 c := by
  have zero : systemPointer s + 0 = systemPointer s := BitVec.add_zero _
  rcases cells with slots | link
  · rw [systemPointer_add] at slots
    exact slots.sub (by decide)
  · rw [← zero, systemPointer_add] at link
    exact link.sub (by decide)

theorem systemMem_away {s : Cpu} {nr : SyscallNr} {back a : Word} {v : Nat} (away : Apart (systemLow s) 88 a v)
    (some_bytes : 0 < v) : loadAt (storeAt (systemMem s nr back) s.cr3 8 (systemPointer s + BitVec.ofInt 64 (-8))
      (BitVec.ofNat 64 (8 * nr.toNat)).toNat) s.cr3 v a = loadAt s.mem s.cr3 v a := by
  have apart : ∀ (d : Word) (w : Nat), 0 < w → (80 + d).toNat + w ≤ 88 → Apart (systemPointer s + d) w a v := by
    intro d w positive inside
    have all := away.sub (e := 0) inside (by simp) positive some_bytes
    have zero : a + 0 = a := BitVec.add_zero a
    rw [zero] at all
    rw [systemPointer_add]
    exact all
  have slots : ∀ x ∈ systemArea, 0 < x.part.width ∧ (80 + BitVec.ofInt 64 x.disp).toNat + x.part.width ≤ 88 := by decide
  have link := apart 0 8 (by decide) (by decide)
  have zero : systemPointer s + 0 = systemPointer s := BitVec.add_zero _
  rw [zero] at link
  rw [loadAt_storeAt_apart (apart _ 8 (by decide) (by decide)), systemMem, loadAt_saveAll_apart, loadAt_storeAt_apart link]
  intro x member
  exact apart _ _ (slots x member).1 (slots x member).2

structure Entered (s : Cpu) (nr : SyscallNr) (back : Word) (w : Cpu) : Prop where
  mem : w.mem = systemMem s nr back
  cr3 : w.cr3 = s.cr3
  star : w.star = s.star
  seg : w.seg = (libCall s nr back).seg
  rbp : w.reg .rbp = systemPointer s
  rsp : w.reg .rsp = systemPointer s
  kept : ∀ r, r ≠ .rbp → r ≠ .rsp → w.reg r = (libCall s nr back).reg r
  number : w.get (w.ea (-8) .rbp) = BitVec.ofNat 64 nr.toNat

theorem systemCall_entered (s : Cpu) (nr : SyscallNr) (back : Word) :
    Entered s nr back ((libCall s nr back).run (systemEnter ++ saves systemArea)) := by
  generalize frame : (libCall s nr back).run (systemEnter ++ saves systemArea) = w
  rw [run_systemSaved] at frame
  have mem : w.mem = systemMem s nr back := by rw [← frame]
  have cr3 : w.cr3 = s.cr3 := by rw [← frame]; rfl
  have rbp : w.reg .rbp = systemPointer s := by rw [← frame]; rfl
  constructor
  case mem => exact mem
  case cr3 => exact cr3
  case star => rw [← frame]; rfl
  case seg => rw [← frame]
  case rbp => exact rbp
  case rsp => rw [← frame]; rfl
  case kept =>
    intro r frame_other stack_other
    rw [← frame]
    exact (Function.update_of_ne frame_other _ _).trans (Function.update_of_ne stack_other _ _)
  case number =>
    apply BitVec.eq_of_toNat_eq
    rw [Cpu.get, word_of_load, mem, cr3, Cpu.ea, rbp]
    exact systemMem_slot s nr back (x := ⟨-8, .reg .rax⟩) (by decide)

theorem Entered.called {s w : Cpu} {nr : SyscallNr} {back : Word} (entered : Entered s nr back w) (table behind : Word) :
    (w.run (systemDispatch table behind)).mem = calledMem s nr back behind := by
  rw [(run_systemDispatch w table behind).mem, entered.number, number_shifted, entered.mem, entered.cr3, entered.rsp,
    Cpu.ea, entered.rbp]
  rfl

/-- Whatever the table holds, the function of the kernel runs above the frame. -/
theorem systemCall_frame (s : Cpu) (nr : SyscallNr) (table back behind : Word) :
    SystemFrame ((libCall s nr back).run (systemCall table behind)).mem s.cr3 s back := by
  rw [systemCall_parts, run_append, (systemCall_entered s nr back).called]
  exact calledMem_frame s nr back behind

theorem systemCall_called (s : Cpu) (nr : SyscallNr) (table back behind func : Word)
    (registered : loadAt s.mem s.cr3 8 (table + BitVec.ofNat 64 (8 * nr.toNat)) = func.toNat)
    (room : Apart (systemLow s) 88 (table + BitVec.ofNat 64 (8 * nr.toNat)) 8) :
    AtSyscall s func back behind ((libCall s nr back).run (systemCall table behind)) := by
  have entered := systemCall_entered s nr back
  have dispatched := run_systemDispatch ((libCall s nr back).run (systemEnter ++ saves systemArea)) table behind
  rw [systemCall_parts, run_append]
  generalize (libCall s nr back).run (systemEnter ++ saves systemArea) = w at entered dispatched
  have after := entered.called table behind
  have pointed : (w.run (systemDispatch table behind)).reg .rbp = systemPointer s :=
    (dispatched.kept .rbp (by decide) (by decide) (by decide)).trans entered.rbp
  constructor
  case rip =>
    rw [dispatched.rip, entered.number, number_shifted, entered.mem, entered.cr3, Cpu.ea, entered.rbp,
      systemMem_away room (by decide), registered, BitVec.ofNat_toNat, BitVec.setWidth_eq]
  case args =>
    intro r member
    have passed : ∀ q ∈ [Reg.rdi, .rsi, .rdx, .r8, .r9], (w.run (systemDispatch table behind)).reg q = s.reg q := by
      intro q listed
      have others : ∀ q ∈ [Reg.rdi, .rsi, .rdx, .r8, .r9], q ≠ .rsp ∧ q ≠ .rax ∧ q ≠ .rcx ∧ q ≠ .rbp := by decide
      obtain ⟨stack, result, count, base⟩ := others q listed
      rw [dispatched.kept q stack result count, entered.kept q base stack, libCall_reg]
      cases q <;> first | rfl | contradiction
    by_cases count : r = .rcx
    · rw [count, dispatched.rcx, entered.kept .r10 (by decide) (by decide), libCall_reg]
    · apply passed
      cases r <;> simp_all
  case top =>
    apply get_of_load
    rw [after, dispatched.cr3, entered.cr3, dispatched.rsp, entered.rsp]
    exact (loadAt_storeAt _ _ _ _ (by decide)).trans (Nat.mod_eq_of_lt behind.isLt)
  case rbp => exact pointed
  case cr3 => rw [dispatched.cr3, entered.cr3]
  case star => rw [dispatched.star, entered.star]
  case cs =>
    rw [dispatched.seg, entered.seg]
    rfl
  case ss =>
    rw [dispatched.seg, entered.seg]
    rfl
  case frame =>
    rw [after]
    exact calledMem_frame s nr back behind

structure Resumes (s : Cpu) (back result space : Word) (after : Cpu) : Prop where
  rip : after.rip = back
  rax : after.reg .rax = result
  rsp : after.reg .rsp = s.reg .rsp
  kept : ∀ r ∈ calleeSaved, after.reg r = s.reg r
  rflags : after.rflags = sysretFlags s.rflags
  cs : after.seg .cs = (s.star >>> 48).setWidth 16 + 16 ||| 3
  ss : after.seg .ss = (s.star >>> 48).setWidth 16 + 8 ||| 3
  cr3 : after.cr3 = space

theorem run_systemRet_resumes {s v : Cpu} {back result : Word} (base : v.reg .rbp = systemPointer s)
    (star : v.star = s.star) (frame : SystemFrame v.mem v.cr3 s back)
    (given : v.get (systemPointer s + BitVec.ofInt 64 (-8)) = result) :
    Resumes s back result v.cr3 (v.run systemRet) := by
  have leaves := run_systemRet v
  have link := frame.link
  have slot : ∀ x ∈ systemArea.tail, (v.run systemRet).part x.part = systemValue s back x.part := by
    intro x member
    have word := leaves.slots x (List.mem_of_mem_tail member)
    rw [(systemArea_tail x member).1, base] at word
    exact word.trans (frame.slots x member)
  have rcx : (v.run systemRet).reg .rcx = back :=
    BitVec.eq_of_toNat_eq (slot ⟨-16, .reg .rcx⟩ (by decide))
  have r11 : (v.run systemRet).reg .r11 = s.rflags :=
    BitVec.eq_of_toNat_eq (slot ⟨-24, .reg .r11⟩ (by decide))
  constructor
  case rip => rw [leaves.rip, rcx]
  case rax =>
    rw [← given]
    have word := leaves.slots ⟨-8, .reg .rax⟩ (by decide)
    rw [base] at word
    apply BitVec.eq_of_toNat_eq
    rw [Cpu.get, word_of_load]
    exact word
  case rsp =>
    rw [leaves.rsp, base, systemPointer, BitVec.add_assoc]
    exact BitVec.add_zero _
  case kept =>
    have saved : ∀ r ∈ [Reg.rbx, .r12, .r13, .r14, .r15], (v.run systemRet).reg r = s.reg r := by
      intro r member
      apply BitVec.eq_of_toNat_eq
      simp only [List.mem_cons, List.not_mem_nil, or_false] at member
      rcases member with rfl | rfl | rfl | rfl | rfl
      · exact slot ⟨-32, .reg .rbx⟩ (by decide)
      · exact slot ⟨-48, .reg .r12⟩ (by decide)
      · exact slot ⟨-56, .reg .r13⟩ (by decide)
      · exact slot ⟨-64, .reg .r14⟩ (by decide)
      · exact slot ⟨-72, .reg .r15⟩ (by decide)
    intro r member
    by_cases pointed : r = .rbp
    · rw [pointed, leaves.rbp, base]
      exact get_of_load link
    · apply saved
      simpa [calleeSaved, pointed] using member
  case rflags => rw [leaves.rflags, r11]
  case cs => rw [leaves.cs, star]
  case ss => rw [leaves.ss, star]
  case cr3 => exact leaves.cr3

theorem SystemFrame.congr {mem other : Memory} {space back : Word} {s : Cpu} (frame : SystemFrame mem space s back)
    (same : ∀ c, SystemCells space s c → other c = mem c) : SystemFrame other space s back := by
  constructor
  case link =>
    have zero : systemPointer s + 0 = systemPointer s := BitVec.add_zero _
    have top := @loadAt_of_covers space (systemPointer s) 8 8 other mem 0 (fun c covers => same c (.inr covers))
      (by decide) (by decide)
    rw [zero] at top
    exact top.trans frame.link
  case slots =>
    intro x member
    have bottom : BitVec.ofInt 64 (-72) = -72#64 := rfl
    have addr : x.addr (systemPointer s) =
        systemPointer s + BitVec.ofInt 64 (-72) + (72 + BitVec.ofInt 64 x.disp) := by
      rw [Slot.addr, bottom]
      grind
    rw [← frame.slots x member, addr]
    exact loadAt_of_covers (fun c covers => same c (.inl covers)) (systemArea_tail x member).2.1 (by decide)

theorem SystemFrame.put {mem : Memory} {space back : Word} {s : Cpu} (n : Nat)
    (frame : SystemFrame mem space s back) :
    SystemFrame (storeAt mem space 8 (systemPointer s + BitVec.ofInt 64 (-8)) n) space s back := by
  constructor
  case link =>
    have zero : systemPointer s + 0 = systemPointer s := BitVec.add_zero _
    have apart := (apart_add (systemPointer s) _ _).mpr (by decide : Apart (BitVec.ofInt 64 (-8)) 8 0 8)
    rw [zero] at apart
    rw [loadAt_storeAt_apart apart]
    exact frame.link
  case slots =>
    intro x member
    rw [Slot.addr, loadAt_storeAt_apart ((apart_add _ _ _).mpr (systemArea_tail x member).2.2.1)]
    exact frame.slots x member

def LibFn.handler : LibFn → Option KernelFn
  | .read => some .sysRead
  | .write => some .sysWrite
  | .open => some .sysOpen
  | .close => some .sysClose
  | .stat => some .sysStat
  | .clone => some .sysClone
  | .execv => some .sysExecv
  | .wait => some .sysWait
  | .exit => some .sysExit
  | .pipe => some .sysPipe
  | .dup2 => some .sysDup2
  | .brk => some .sysBrk
  | .mknod => some .sysMknod
  | .unlink => some .sysUnlink
  | .mkdir => some .sysMkdir
  | .rmdir => some .sysRmdir
  | .clockGettime => some .sysClockGettime
  | .schedYield => some .taskYield
  | .trial => none

theorem LibFn.handler_listed {f : LibFn} {k : KernelFn} (handled : f.handler = some k) :
    (f.number, k) ∈ syscallInit := by
  cases f <;> cases handled <;> decide

def tableShapes : List (Int × Nat) := syscallInit.map fun x => (8 * (x.1.toNat : Int), 8)

theorem tableShapes_apart : ShapesApart tableShapes := by decide

theorem tableField_addr (fn : KernelFn → Word) (x : SyscallNr × KernelFn) (table : Word) :
    (tableField fn x).addr table = table + BitVec.ofNat 64 (8 * x.1.toNat) := by
  have cast : (8 * (x.1.toNat : Int)) = ((8 * x.1.toNat : Nat) : Int) := by
    push_cast
    rfl
  rw [Field.addr, tableField, cast, BitVec.ofInt_natCast]

theorem tableMem_entry (fn : KernelFn → Word) (space table : Word) (mem : Memory) {x : SyscallNr × KernelFn}
    (listed : x ∈ syscallInit) : loadAt (tableMem fn space table mem) space 8 (table + BitVec.ofNat 64 (8 * x.1.toNat)) =
      (fn x.2).toNat := by
  have member := List.mem_map_of_mem (f := tableField fn) listed
  have shapes : (syscallInit.map (tableField fn)).map Field.shape = tableShapes := List.map_map
  have fields : ∀ g ∈ syscallInit.map (tableField fn), g.width ≤ 8 ∧ g.value < 256 ^ g.width := by
    intro g inside
    obtain ⟨y, _, same⟩ := List.mem_map.mp inside
    rw [← same]
    exact ⟨Nat.le_refl 8, (fn y.2).isLt⟩
  rw [← tableField_addr fn x]
  exact loadAt_writeAll (f := tableField fn x) (shapes ▸ tableShapes_apart) (fun g inside => (fields g inside).1)
    (fun g inside => (fields g inside).2) member

theorem number_inside : ∀ x ∈ syscallInit, (BitVec.ofNat 64 (8 * x.1.toNat)).toNat + 8 ≤ 512 := by decide

/-- A function of the library calls the function of the kernel that it stands for, with its arguments, and when that has
    returned, the program goes on with the result and its own registers. Only `trial` has no function in the kernel. -/
theorem syscall_transparent (s : Cpu) (boot : Memory) (fn : KernelFn → Word) (f : LibFn) (k : KernelFn)
    (table back behind : Word) (star : s.star = starValue) (handled : f.handler = some k)
    (filled : ∀ c, Covers s.cr3 table 512 c → s.mem c = tableMem fn s.cr3 table boot c)
    (room : Apart (systemLow s) 88 table 512) :
    ∃ t, t = (libCall s f.number back).run (systemCall table behind) ∧
      t.rip = fn k ∧ (∀ r ∈ [Reg.rdi, .rsi, .rdx, .rcx, .r8, .r9], t.reg r = s.reg r) ∧ t.top = behind ∧
      t.seg .cs = selectorKCode ∧ t.seg .ss = selectorKData ∧
      ∀ own u, (∀ c, SystemCells s.cr3 s c → own c) → Returns own t u →
        u.rip = behind ∧ Resumes s back (u.reg .rax) s.cr3 ((u.run systemResult).run systemRet) := by
  have listed := LibFn.handler_listed handled
  have inside := number_inside _ listed
  have registered : loadAt s.mem s.cr3 8 (table + BitVec.ofNat 64 (8 * f.number.toNat)) = (fn k).toNat := by
    rw [← tableMem_entry fn s.cr3 table boot listed]
    exact loadAt_of_covers filled inside (by decide)
  have entry : Apart (systemLow s) 88 (table + BitVec.ofNat 64 (8 * f.number.toNat)) 8 := by
    have zero : systemLow s + 0 = systemLow s := BitVec.add_zero _
    have all := room.sub (d := 0) (w := 88) (by decide) inside (by decide) (by decide)
    rw [zero] at all
    exact all
  have called := systemCall_called s f.number table back behind (fn k) registered entry
  refine ⟨_, rfl, called.rip, called.args, called.top, ?_, ?_, ?_⟩
  · rw [called.cs, star]
    rfl
  · rw [called.ss, star]
    rfl
  · intro own u frame returned
    have space : u.cr3 = s.cr3 := returned.cr3.trans called.cr3
    have base : u.reg .rbp = systemPointer s := (returned.kept .rbp (by decide)).trans called.rbp
    have stored : u.run systemResult = u.put (systemPointer s + BitVec.ofInt 64 (-8)) (u.reg .rax) := by
      rw [← base]
      rfl
    have still := called.frame.congr fun c covers => returned.mem c (frame c covers)
    refine ⟨returned.rip.trans called.top, ?_⟩
    rw [stored, ← space]
    apply run_systemRet_resumes (v := u.put (systemPointer s + BitVec.ofInt 64 (-8)) (u.reg .rax)) base
    · exact returned.star.trans called.star
    · rw [← space] at still
      exact still.put (u.reg .rax).toNat
    · exact Cpu.get_put u _ _

/-- `read` in a program whose registers hold 7. -/
theorem syscall_transparent_closed : ∃ s : Cpu, s.reg .rbx = 7 ∧
    ∃ t, t = (libCall s LibFn.read.number 0x1000).run (systemCall 0xffff800000010000#64 0x2000) ∧
      t.rip = 0x3000 ∧ (∀ r ∈ [Reg.rdi, .rsi, .rdx, .rcx, .r8, .r9], t.reg r = s.reg r) ∧ t.top = 0x2000 ∧
      t.seg .cs = selectorKCode ∧ t.seg .ss = selectorKData ∧
      ∀ own u, (∀ c, SystemCells s.cr3 s c → own c) → Returns own t u →
        u.rip = 0x2000 ∧ Resumes s 0x1000 (u.reg .rax) s.cr3 ((u.run systemResult).run systemRet) :=
  let here : Cpu := { blank 0 fun _ => 7 with
    star := starValue
    mem := tableMem (fun _ => 0x3000) 0 0xffff800000010000#64 fun _ => 0 }
  ⟨here, rfl, syscall_transparent here (fun _ => 0) (fun _ => 0x3000) .read .sysRead 0xffff800000010000#64 0x1000 0x2000
    rfl rfl (fun _ _ => rfl) (by decide)⟩

/-- The loop of `sys_execv` over `argv`, with `fuel` turns to go. -/
def countArgs (mem : Memory) (space argv : Word) : Nat → Nat → Option Nat
  | 0, _ => none
  | fuel + 1, argc =>
    if loadAt mem space 8 (argv + BitVec.ofNat 64 (8 * argc)) ≠ 0 then countArgs mem space argv fuel (argc + 1)
    else some argc

/-- `sys_execv` stores the entry point in the slot of `rcx` before it counts the arguments. -/
def execvEntry (u : Cpu) (rbp entry : Word) : Cpu := u.put (rbp + BitVec.ofInt 64 (-16)) entry

def execvLeave (u : Cpu) (rbp entry argc argv : Word) : Cpu :=
  (((execvEntry u rbp entry).setReg .rdi argc).setReg .rsi argv).setReg .rbp rbp

theorem countArgs_first {mem : Memory} {space argv : Word} {argc : Nat}
    (some_args : ∀ i < argc, loadAt mem space 8 (argv + BitVec.ofNat 64 (8 * i)) ≠ 0)
    (last : loadAt mem space 8 (argv + BitVec.ofNat 64 (8 * argc)) = 0) (i : Nat) (left : i ≤ argc) (fuel : Nat)
    (enough : argc - i < fuel) : countArgs mem space argv fuel i = some argc := by
  induction fuel generalizing i with
  | zero => omega
  | succ fuel ih =>
    rw [countArgs]
    by_cases done : i = argc
    · rw [done, if_neg (not_not.mpr last)]
    · rw [if_pos (some_args i (by omega))]
      exact ih (i + 1) (by omega) (by omega)

theorem SystemFrame.jump {mem : Memory} {space back : Word} {s : Cpu} (entry : Word)
    (frame : SystemFrame mem space s back) :
    SystemFrame (storeAt mem space 8 (systemPointer s + BitVec.ofInt 64 (-16)) entry.toNat) space s entry := by
  constructor
  case link =>
    have zero : systemPointer s + 0 = systemPointer s := BitVec.add_zero _
    have apart := (apart_add (systemPointer s) _ _).mpr (by decide : Apart (BitVec.ofInt 64 (-16)) 8 0 8)
    rw [zero] at apart
    rw [loadAt_storeAt_apart apart]
    exact frame.link
  case slots =>
    intro x member
    have others : ∀ y ∈ systemArea.tail, y = ⟨-16, .reg .rcx⟩ ∨ Apart (BitVec.ofInt 64 (-16)) 8 (BitVec.ofInt 64 y.disp) 8 ∧
        y.part ≠ .reg .rcx := by decide
    rcases others x member with same | apart
    · rw [same, Slot.addr, loadAt_storeAt _ _ _ _ (by decide)]
      exact Nat.mod_eq_of_lt entry.isLt
    · rw [Slot.addr, loadAt_storeAt_apart ((apart_add _ _ _).mpr apart.1)]
      refine (frame.slots x member).trans ?_
      unfold systemValue
      split
      · exact absurd ‹_› apart.2
      · rfl
      · rfl

/-- A successful `execv` does not return: the program starts at its entry point, on the stack and with the registers of
    the caller, with the number of arguments and their array. The arguments are read in the memory the entry point is
    already in. -/
theorem execv_enters (s u : Cpu) (table back behind entry argv : Word) (argc : Nat) (space : u.cr3 = s.cr3)
    (star : u.star = s.star)
    (running : ∀ c, SystemCells s.cr3 s c →
      u.mem c = ((libCall s LibFn.execv.number back).run (systemCall table behind)).mem c)
    (some_args : ∀ i < argc,
      loadAt (execvEntry u (systemPointer s) entry).mem u.cr3 8 (argv + BitVec.ofNat 64 (8 * i)) ≠ 0)
    (last : loadAt (execvEntry u (systemPointer s) entry).mem u.cr3 8 (argv + BitVec.ofNat 64 (8 * argc)) = 0) :
    (∀ fuel > argc, countArgs (execvEntry u (systemPointer s) entry).mem u.cr3 argv fuel 0 = some argc) ∧
    ∃ after, after = (execvLeave u (systemPointer s) entry (BitVec.ofNat 64 argc) argv).run systemRet ∧
      Resumes s entry (u.get (systemPointer s + BitVec.ofInt 64 (-8))) s.cr3 after ∧
      after.reg .rdi = BitVec.ofNat 64 argc ∧ after.reg .rsi = argv := by
  refine ⟨fun fuel enough => countArgs_first some_args last 0 (Nat.zero_le _) fuel enough, _, rfl, ?_, ?_, ?_⟩
  · have frame := ((systemCall_frame s LibFn.execv.number table back behind).congr running).jump entry
    rw [← space] at frame ⊢
    apply run_systemRet_resumes (v := execvLeave u (systemPointer s) entry (BitVec.ofNat 64 argc) argv) rfl star frame
    exact Cpu.get_put_apart ((apart_add _ _ _).mpr (by decide))
  · exact (run_systemRet _).kept .rdi (by decide) (by decide) (by decide)
  · exact (run_systemRet _).kept .rsi (by decide) (by decide) (by decide)

/-- A program whose registers hold 7 starts another one with two arguments, the words at 0xffff800000300000. -/
theorem execv_enters_closed : ∃ s u : Cpu, s.reg .rbx = 7 ∧
    loadAt u.mem u.cr3 8 0xffff800000300000#64 = 0x402000 ∧ loadAt u.mem u.cr3 8 0xffff800000300008#64 = 0x402010 ∧
    (∀ fuel > 2, countArgs (execvEntry u (systemPointer s) 0x8048000).mem u.cr3 0xffff800000300000#64 fuel 0 = some 2) ∧
    ∃ after, after = (execvLeave u (systemPointer s) 0x8048000 2 0xffff800000300000#64).run systemRet ∧
      Resumes s 0x8048000 (u.get (systemPointer s + BitVec.ofInt 64 (-8))) s.cr3 after ∧
      after.reg .rdi = 2 ∧ after.reg .rsi = 0xffff800000300000#64 :=
  let s := blank 0 fun _ => 7
  let ran := (libCall s LibFn.execv.number 0).run (systemCall 0 0)
  let u : Cpu := { ran with
    mem := storeAt (storeAt ran.mem 0 8 0xffff800000300000#64 0x402000) 0 8 0xffff800000300008#64 0x402010 }
  have away : ∀ c, SystemCells 0 s c → u.mem c = ran.mem c := by
    intro c cells
    have first : Apart (systemLow s) 88 0xffff800000300000#64 8 := by decide
    have second : Apart (systemLow s) 88 0xffff800000300008#64 8 := by decide
    exact (storeAt_other (second.excludes cells.low)).trans (storeAt_other (first.excludes cells.low))
  ⟨s, u, rfl, by decide +kernel, by decide +kernel,
    execv_enters s u 0 0 0 0x8048000 0xffff800000300000#64 2 rfl rfl away (by decide +kernel) (by decide +kernel)⟩

end RecoverOs.Userprog.SystemCall
