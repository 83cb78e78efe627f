import RecoverOs.Kernel.Descriptors

namespace RecoverOs.Kernel

open Amd64

def errorCodeInstr (nr : Nat) : Instr :=
  if nr ∈ [0x08, 0x0a, 0x0b, 0x0d, 0x0e, 0x11, 0x18, 0x1a, 0x1b, 0x1d, 0x1e] then .nop else .pushImm 0

def pushesErrorCode (nr : Nat) : Bool := decide (nr ∈ [8, 10, 11, 12, 13, 14, 17, 21, 29, 30])

def intrExit : List Instr := [
  .load (-8) .rbp .rdi,
  .load (-16) .rbp .rsi,
  .loadSeg (-18) .rbp .ds,
  .loadSeg (-20) .rbp .es,
  .loadSeg (-22) .rbp .gs,
  .loadSeg (-24) .rbp .fs,
  .load (-32) .rbp .rax,
  .load (-40) .rbp .rbx,
  .load (-48) .rbp .rcx,
  .load (-56) .rbp .rdx,
  .load (-64) .rbp .r8,
  .load (-72) .rbp .r9,
  .load (-80) .rbp .r10,
  .load (-88) .rbp .r11,
  .load (-96) .rbp .r12,
  .load (-104) .rbp .r13,
  .load (-112) .rbp .r14,
  .load (-120) .rbp .r15,
  .leave,
  .addImm 8 .rsp,
  .iretq]

/-- `SAVE_ALL`. -/
def intrArea : List Slot := [⟨-8, .reg .rdi⟩, ⟨-16, .reg .rsi⟩, ⟨-18, .seg .ds⟩, ⟨-20, .seg .es⟩, ⟨-22, .seg .gs⟩,
  ⟨-24, .seg .fs⟩, ⟨-32, .reg .rax⟩, ⟨-40, .reg .rbx⟩, ⟨-48, .reg .rcx⟩, ⟨-56, .reg .rdx⟩, ⟨-64, .reg .r8⟩,
  ⟨-72, .reg .r9⟩, ⟨-80, .reg .r10⟩, ⟨-88, .reg .r11⟩, ⟨-96, .reg .r12⟩, ⟨-104, .reg .r13⟩, ⟨-112, .reg .r14⟩,
  ⟨-120, .reg .r15⟩]

theorem intrExit_parts : intrExit = restores intrArea ++ [.leave, .addImm 8 .rsp, .iretq] := rfl

def intrFrame (s : Cpu) (code : Word) : List Field :=
  [⟨48, 8, (s.seg .ss).toNat⟩, ⟨40, 8, (s.reg .rsp).toNat⟩, ⟨32, 8, s.rflags.toNat⟩, ⟨24, 8, (s.seg .cs).toNat⟩,
    ⟨16, 8, s.rip.toNat⟩, ⟨8, 8, code.toNat⟩, ⟨0, 8, (s.reg .rbp).toNat⟩] ++ intrArea.map (Slot.field s.part)

variable {s : Cpu} {stack entry : Word} {selector : BitVec 16} {nr : Nat} {code : Option Word}

def intrPointer (stack : Word) : Word := (stack &&& ~~~15#64) + BitVec.ofInt 64 (-56)

/-- Exactly one of the processor and the entry pushes an error code. -/
def OneErrorCode (nr : Nat) (code : Option Word) : Prop := code.isSome = true ↔ errorCodeInstr nr = .nop

def intrWords (s : Cpu) (code : Word) : List Field := (intrFrame s code).take 7

theorem run_delivered (one : OneErrorCode nr code) : (s.deliver stack selector entry code).run
    [errorCodeInstr nr, .push .rbp, .mov .rsp .rbp] =
    { s.deliver stack selector entry code with
      reg := Function.update (Function.update s.reg .rsp (intrPointer stack)) .rbp (intrPointer stack)
      mem := writeAll s.cr3 (intrPointer stack) (intrWords s (code.getD 0)) s.mem } := by
  cases code with
  | none =>
    have push : errorCodeInstr nr = .pushImm 0 := by
      have not : ¬ errorCodeInstr nr = .nop := by
        intro same
        simp [OneErrorCode, same] at one
      unfold errorCodeInstr at not ⊢
      split
      · rename_i member
        rw [if_pos member] at not
        exact absurd rfl not
      · rfl
    rw [push]
    simp [Cpu.run, Cpu.exec, Cpu.push, Cpu.put, Cpu.setReg, Cpu.ea, Cpu.deliver, hardwareFrame, intrWords, intrFrame,
      writeAll, Field.addr, intrPointer, BitVec.add_assoc]
  | some e =>
    have nop : errorCodeInstr nr = .nop := one.mp rfl
    rw [nop]
    simp [Cpu.run, Cpu.exec, Cpu.push, Cpu.put, Cpu.setReg, Cpu.ea, Cpu.deliver, hardwareFrame, intrWords, intrFrame,
      writeAll, Field.addr, intrPointer, BitVec.add_assoc]

def intrMem (s : Cpu) (stack code : Word) : Memory :=
  writeAll s.cr3 (intrPointer stack) (intrFrame s code) s.mem

theorem run_saved (one : OneErrorCode nr code) : (s.deliver stack selector entry code).run
    ([errorCodeInstr nr, .push .rbp, .mov .rsp .rbp] ++ saves intrArea) =
    { s.deliver stack selector entry code with
      reg := Function.update (Function.update s.reg .rsp (intrPointer stack)) .rbp (intrPointer stack)
      mem := intrMem s stack (code.getD 0) } := by
  rw [run_append, run_saves, run_delivered one]
  have frame : intrFrame s (code.getD 0) = intrWords s (code.getD 0) ++ intrArea.map (Slot.field s.part) := rfl
  rw [intrMem, frame, writeAll_append]
  rfl

/-- The handler is called with the number of the interrupt and the address of the word that holds `ss`. -/
structure AtHandler (s : Cpu) (stack code handleTable back : Word) (nr : Nat) (t : Cpu) : Prop where
  rip : t.rip = BitVec.ofNat 64 (loadAt (intrMem s stack code) s.cr3 8 (handleTable + BitVec.ofNat 64 (nr * 8)))
  rdi : t.reg .rdi = BitVec.ofNat 64 nr
  rsi : t.reg .rsi = intrPointer stack + 48
  rsp : t.reg .rsp = intrPointer stack + BitVec.ofInt 64 (-128)
  rbp : t.reg .rbp = intrPointer stack
  cr3 : t.cr3 = s.cr3
  star : t.star = s.star
  mem : t.mem = storeAt (intrMem s stack code) s.cr3 8 (intrPointer stack + BitVec.ofInt 64 (-128)) back.toNat

def intrLow (stack : Word) : Word := intrPointer stack + BitVec.ofInt 64 (-120)

def IntrCells (s : Cpu) (stack : Word) (c : Cell) : Prop := Covers s.cr3 (intrLow stack) 176 c

def intrShapes : List (Int × Nat) :=
  [(48, 8), (40, 8), (32, 8), (24, 8), (16, 8), (8, 8), (0, 8)] ++ intrArea.map Slot.shape

theorem intrFrame_shapes (s : Cpu) (code : Word) : (intrFrame s code).map Field.shape = intrShapes := rfl

theorem intrShapes_apart : ShapesApart intrShapes := by decide

theorem intrShapes_inside : ∀ x ∈ intrShapes, (0 < x.2 ∧ x.2 ≤ 8) ∧ (120 + BitVec.ofInt 64 x.1).toNat + x.2 ≤ 176 ∧
    Apart (BitVec.ofInt 64 (-128)) 8 (BitVec.ofInt 64 x.1) x.2 := by decide

theorem intrFrame_inside {f : Field} {word : Word} (member : f ∈ intrFrame s word) :
    (0 < f.width ∧ f.width ≤ 8) ∧ (120 + BitVec.ofInt 64 f.disp).toNat + f.width ≤ 176 ∧
      Apart (BitVec.ofInt 64 (-128)) 8 (BitVec.ofInt 64 f.disp) f.width := by
  apply intrShapes_inside f.shape
  rw [← intrFrame_shapes s word]
  exact List.mem_map_of_mem member

theorem intrFrame_addr (f : Field) (stack : Word) :
    f.addr (intrPointer stack) = intrLow stack + (120 + BitVec.ofInt 64 f.disp) := by
  have bottom : BitVec.ofInt 64 (-120) = -120#64 := rfl
  rw [Field.addr, intrLow, bottom]
  grind

theorem intrFrame_fits {f : Field} {word : Word} (member : f ∈ intrFrame s word) : f.value < 256 ^ f.width := by
  rcases List.mem_append.mp member with first | slot
  · simp only [List.mem_cons, List.not_mem_nil, or_false] at first
    have short : ∀ n : BitVec 16, n.toNat < 256 ^ 8 := fun n => Nat.lt_of_lt_of_le n.isLt (by decide)
    rcases first with rfl | rfl | rfl | rfl | rfl | rfl | rfl
    · exact short _
    · exact (s.reg .rsp).isLt
    · exact s.rflags.isLt
    · exact short _
    · exact s.rip.isLt
    · exact word.isLt
    · exact (s.reg .rbp).isLt
  · obtain ⟨x, _, same⟩ := List.mem_map.mp slot
    rw [← same]
    exact s.part_lt x.part

/-- While a handler runs that keeps the frame, every word of the frame can be read. -/
theorem AtHandler.frame {word handleTable back : Word} {t u : Cpu} (called : AtHandler s stack word handleTable back nr t)
    (kept : ∀ c, IntrCells s stack c → u.mem c = t.mem c) {f : Field} (member : f ∈ intrFrame s word) :
    loadAt u.mem s.cr3 f.width (f.addr (intrPointer stack)) = f.value := by
  obtain ⟨small, inside, apart⟩ := intrFrame_inside member
  have same : loadAt u.mem s.cr3 f.width (f.addr (intrPointer stack)) =
      loadAt t.mem s.cr3 f.width (f.addr (intrPointer stack)) := by
    rw [intrFrame_addr]
    exact loadAt_of_covers kept inside (by decide)
  have shapes : ShapesApart ((intrFrame s word).map Field.shape) := by
    rw [intrFrame_shapes]
    exact intrShapes_apart
  rw [same, called.mem, Field.addr, loadAt_storeAt_apart ((apart_add _ _ _).mpr apart)]
  exact loadAt_writeAll shapes (fun g listed => (intrFrame_inside listed).1.2) (fun g listed => intrFrame_fits listed) member

structure LeavesIntr (v after : Cpu) : Prop where
  mem : after.mem = v.mem
  cr3 : after.cr3 = v.cr3
  star : after.star = v.star
  rbp : after.reg .rbp = v.get (v.reg .rbp)
  rip : after.rip = v.get (v.reg .rbp + 16)
  cs : after.seg .cs = (v.get (v.reg .rbp + 24)).setWidth 16
  rflags : after.rflags = v.get (v.reg .rbp + 32)
  rsp : after.reg .rsp = v.get (v.reg .rbp + 40)
  ss : after.seg .ss = (v.get (v.reg .rbp + 48)).setWidth 16
  slots : ∀ x ∈ intrArea, after.part x.part = loadAt v.mem v.cr3 x.part.width (x.addr (v.reg .rbp))

theorem run_intrExit (v : Cpu) : LeavesIntr v (v.run intrExit) := by
  have restored := @run_restores intrArea v (by decide) (by decide)
  have left := run_leave_iretq (v.run (restores intrArea))
  rw [intrExit_parts, run_append]
  generalize v.run (restores intrArea) = w at restored left
  have base : w.reg .rbp = v.reg .rbp := Cpu.reg_of_part (restored.kept (.reg .rbp) (by decide))
  have get : ∀ addr, w.get addr = v.get addr := by
    intro addr
    rw [Cpu.get, Cpu.get, restored.mem, restored.cr3]
  constructor
  case mem => exact left.mem.trans restored.mem
  case cr3 => exact left.cr3.trans restored.cr3
  case star => exact left.star.trans restored.star
  case rbp => rw [left.rbp, base, get]
  case rip => rw [left.rip, base, get]
  case cs => rw [left.cs, base, get]
  case rflags => rw [left.rflags, base, get]
  case rsp => rw [left.rsp, base, get]
  case ss => rw [left.ss, base, get]
  case slots =>
    intro x member
    rw [← restored.loaded x member]
    have apart : ∀ y ∈ intrArea, y.part ≠ .reg .rbp ∧ y.part ≠ .reg .rsp ∧ y.part ≠ .seg .cs ∧ y.part ≠ .seg .ss := by
      decide
    obtain ⟨rbp, rsp, cs, ss⟩ := apart x member
    cases kind : x.part with
    | reg r =>
      rw [kind] at rbp rsp
      exact congrArg BitVec.toNat (left.kept r (fun same => rbp (by rw [same])) fun same => rsp (by rw [same]))
    | seg g =>
      rw [kind] at cs ss
      exact congrArg BitVec.toNat (left.keptSeg g (fun same => cs (by rw [same])) fun same => ss (by rw [same]))

theorem get_of_load {u : Cpu} {addr v : Word} (loaded : loadAt u.mem u.cr3 8 addr = v.toNat) : u.get addr = v := by
  rw [Cpu.get, loaded, BitVec.ofNat_toNat, BitVec.setWidth_eq]

theorem get_of_short {u : Cpu} {addr : Word} {v : BitVec 16} (loaded : loadAt u.mem u.cr3 8 addr = v.toNat) :
    (u.get addr).setWidth 16 = v := by
  have wide : (v.setWidth 64).toNat = v.toNat := by
    rw [BitVec.toNat_setWidth]
    exact Nat.mod_eq_of_lt (Nat.lt_of_lt_of_le v.isLt (by decide))
  rw [get_of_load (loaded.trans wide.symm)]
  apply BitVec.eq_of_toNat_eq
  rw [BitVec.toNat_setWidth, wide]
  exact Nat.mod_eq_of_lt v.isLt

/-- The processor takes interrupt `nr`: `ist` is the interrupt stack table, `word` the error code if there is one. -/
def raise (s : Cpu) (entryTable ist : Nat → Word) (nr : Nat) (word : Word) : Cpu :=
  let gate := Gate.load (idtBytes entryTable) (16 * nr)
  s.deliver (ist gate.ist) gate.selector gate.offset (if pushesErrorCode nr then some word else none)

/-- `rbp_ptr[i]` in a handler. -/
def rbpPtr (t : Cpu) (i : Int) : Nat := loadAt t.mem t.cr3 8 (t.reg .rsi + BitVec.ofInt 64 (8 * i))

/-- What `put_intr_info` prints. -/
structure SeesProgram (s t : Cpu) (word : Word) : Prop where
  ss : rbpPtr t 0 = (s.seg .ss).toNat
  rsp : rbpPtr t (-1) = (s.reg .rsp).toNat
  rflags : rbpPtr t (-2) = s.rflags.toNat
  cs : rbpPtr t (-3) = (s.seg .cs).toNat
  rip : rbpPtr t (-4) = s.rip.toNat
  errCode : rbpPtr t (-5) = word.toNat
  rbp : rbpPtr t (-6) = (s.reg .rbp).toNat

theorem AtHandler.sees {word handleTable back : Word} {t : Cpu} (called : AtHandler s stack word handleTable back nr t) :
    SeesProgram s t word := by
  have load : ∀ (i : Int) (n : Nat), ⟨8 * i + 48, 8, n⟩ ∈ intrFrame s word → rbpPtr t i = n := by
    intro i n member
    have addr : t.reg .rsi + BitVec.ofInt 64 (8 * i) = Field.addr ⟨8 * i + 48, 8, n⟩ (intrPointer stack) := by
      rw [called.rsi, Field.addr, BitVec.ofInt_add, BitVec.add_assoc]
      congr 1
      exact BitVec.add_comm _ _
    rw [rbpPtr, addr, called.cr3]
    exact called.frame (fun _ _ => rfl) member
  constructor
  case ss => exact load 0 _ (by simp [intrFrame])
  case rsp => exact load (-1) _ (by simp [intrFrame])
  case rflags => exact load (-2) _ (by simp [intrFrame])
  case cs => exact load (-3) _ (by simp [intrFrame])
  case rip => exact load (-4) _ (by simp [intrFrame])
  case errCode => exact load (-5) _ (by simp [intrFrame])
  case rbp => exact load (-6) _ (by simp [intrFrame])

end RecoverOs.Kernel
