import Mathlib.Data.List.Nodup
import RecoverOs.Logic.Bytes

namespace Amd64

open Bytes

abbrev Word := BitVec 64

inductive Reg where
  | rax | rbx | rcx | rdx | rsi | rdi | rbp | rsp | r8 | r9 | r10 | r11 | r12 | r13 | r14 | r15
  deriving DecidableEq, Repr

inductive Seg where
  | cs | ds | es | fs | gs | ss
  deriving DecidableEq, Repr

/-- A byte of memory. An address of the upper half names the same byte in every address space. -/
inductive Cell where
  | shared (addr : Word)
  | owned (space addr : Word)
  deriving DecidableEq, Repr

def Cell.addr : Cell → Word
  | .shared addr => addr
  | .owned _ addr => addr

def cell (space addr : Word) : Cell := if addr.msb then .shared addr else .owned space addr

abbrev Memory := Cell → UInt8

def loadAt (mem : Memory) (space : Word) (width : Nat) (addr : Word) : Nat :=
  wordAt width (fun i => mem (cell space (addr + BitVec.ofNat 64 i))) 0

def storeAt (mem : Memory) (space : Word) (width : Nat) (addr : Word) (n : Nat) : Memory := fun c =>
  if c = cell space c.addr ∧ (c.addr - addr).toNat < width then byteOf n (c.addr - addr).toNat else mem c

def copyAt (mem : Memory) (space dst src : Word) (n : Nat) : Memory := fun c =>
  if c = cell space c.addr ∧ (c.addr - dst).toNat < n then mem (cell space (src + (c.addr - dst))) else mem c

/-- `star` and `lstar` are the registers that `syscall` and `sysret` read. Arithmetic leaves `rflags` as they are. -/
structure Cpu where
  reg : Reg → Word
  seg : Seg → BitVec 16
  rip : Word
  rflags : Word
  cr3 : Word
  star : Word
  lstar : Word
  mem : Memory
  outs : List (UInt8 × UInt8)

inductive Instr where
  | nop
  | push (src : Reg)
  | pushImm (n : Word)
  | mov (src dst : Reg)
  | movImm (n : Word) (dst : Reg)
  | store (src : Reg) (disp : Int) (base : Reg)
  | load (disp : Int) (base dst : Reg)
  | storeSeg (src : Seg) (disp : Int) (base : Reg)
  | loadSeg (disp : Int) (base : Reg) (dst : Seg)
  | sub (src dst : Reg)
  | subImm (n : Word) (dst : Reg)
  | addImm (n : Word) (dst : Reg)
  | addFrom (disp : Int) (base dst : Reg)
  | shlAt (count : Nat) (disp : Int) (base : Reg)
  | movCr3 (src : Reg)
  | movAl (n : UInt8)
  | outAl (port : UInt8)
  | call (pointer : Reg) (back : Word)
  | jmp (target : Reg)
  | leave
  | ret
  | iretq
  | sysretq
  deriving DecidableEq, Repr

def Cpu.setReg (s : Cpu) (r : Reg) (v : Word) : Cpu := { s with reg := Function.update s.reg r v }

def Cpu.setSeg (s : Cpu) (g : Seg) (v : BitVec 16) : Cpu := { s with seg := Function.update s.seg g v }

def Cpu.ea (s : Cpu) (disp : Int) (base : Reg) : Word := s.reg base + BitVec.ofInt 64 disp

def Cpu.get (s : Cpu) (addr : Word) : Word := BitVec.ofNat 64 (loadAt s.mem s.cr3 8 addr)

def Cpu.put (s : Cpu) (addr v : Word) : Cpu := { s with mem := storeAt s.mem s.cr3 8 addr v.toNat }

def Cpu.push (s : Cpu) (v : Word) : Cpu := (s.put (s.ea (-8) .rsp) v).setReg .rsp (s.ea (-8) .rsp)

def Cpu.top (s : Cpu) : Word := s.get (s.reg .rsp)

def Cpu.drop (s : Cpu) : Cpu := s.setReg .rsp (s.ea 8 .rsp)

/-- `sysret` loads the flags from `r11` without the reserved ones. -/
def sysretFlags (v : Word) : Word := v &&& 0x3c7fd7#64 ||| 2#64

def Cpu.exec (s : Cpu) : Instr → Cpu
  | .nop => s
  | .push src => s.push (s.reg src)
  | .pushImm n => s.push n
  | .mov src dst => s.setReg dst (s.reg src)
  | .movImm n dst => s.setReg dst n
  | .store src disp base => s.put (s.ea disp base) (s.reg src)
  | .load disp base dst => s.setReg dst (s.get (s.ea disp base))
  | .storeSeg src disp base => { s with mem := storeAt s.mem s.cr3 2 (s.ea disp base) (s.seg src).toNat }
  | .loadSeg disp base dst => s.setSeg dst (BitVec.ofNat 16 (loadAt s.mem s.cr3 2 (s.ea disp base)))
  | .sub src dst => s.setReg dst (s.reg dst - s.reg src)
  | .subImm n dst => s.setReg dst (s.reg dst - n)
  | .addImm n dst => s.setReg dst (s.reg dst + n)
  | .addFrom disp base dst => s.setReg dst (s.reg dst + s.get (s.ea disp base))
  | .shlAt count disp base => s.put (s.ea disp base) (s.get (s.ea disp base) <<< count)
  | .movCr3 src => { s with cr3 := s.reg src }
  | .movAl n => s.setReg .rax (s.reg .rax &&& (~~~0xff#64) ||| BitVec.ofNat 64 n.toNat)
  | .outAl port => { s with outs := s.outs ++ [(port, UInt8.ofNat (s.reg .rax).toNat)] }
  | .call pointer back => { s.push back with rip := s.get (s.reg pointer) }
  | .jmp target => { s with rip := s.reg target }
  | .leave => (s.setReg .rsp (s.ea 8 .rbp)).setReg .rbp (s.get (s.reg .rbp))
  | .ret => { s.drop with rip := s.top }
  | .iretq =>
    { s with
      rip := s.top
      seg := Function.update (Function.update s.seg .cs ((s.get (s.ea 8 .rsp)).setWidth 16)) .ss
        ((s.get (s.ea 32 .rsp)).setWidth 16)
      rflags := s.get (s.ea 16 .rsp)
      reg := Function.update s.reg .rsp (s.get (s.ea 24 .rsp)) }
  | .sysretq =>
    { s with
      rip := s.reg .rcx
      rflags := sysretFlags (s.reg .r11)
      seg := Function.update (Function.update s.seg .cs ((s.star >>> 48).setWidth 16 + 16 ||| 3)) .ss
        ((s.star >>> 48).setWidth 16 + 8 ||| 3) }

def Cpu.run (s : Cpu) (prog : List Instr) : Cpu := prog.foldl Cpu.exec s

inductive Part where
  | reg (r : Reg)
  | seg (g : Seg)
  deriving DecidableEq, Repr

def Part.width : Part → Nat
  | .reg _ => 8
  | .seg _ => 2

def Cpu.part (s : Cpu) : Part → Nat
  | .reg r => (s.reg r).toNat
  | .seg g => (s.seg g).toNat

structure Slot where
  disp : Int
  part : Part
  deriving DecidableEq, Repr

def Slot.addr (x : Slot) (base : Word) : Word := base + BitVec.ofInt 64 x.disp

def Slot.save (x : Slot) : Instr :=
  match x.part with
  | .reg r => .store r x.disp .rbp
  | .seg g => .storeSeg g x.disp .rbp

def Slot.restore (x : Slot) : Instr :=
  match x.part with
  | .reg r => .load x.disp .rbp r
  | .seg g => .loadSeg x.disp .rbp g

def saves (area : List Slot) : List Instr := area.map Slot.save

def restores (area : List Slot) : List Instr := area.map Slot.restore

/-- Two ranges of bytes that share none, on the circle of addresses. -/
def Apart (a : Word) (w : Nat) (b : Word) (v : Nat) : Prop := w ≤ (b - a).toNat ∧ v ≤ (a - b).toNat

instance (a : Word) (w : Nat) (b : Word) (v : Nat) : Decidable (Apart a w b v) := inferInstanceAs (Decidable (_ ∧ _))

structure Field where
  disp : Int
  width : Nat
  value : Nat
  deriving DecidableEq, Repr

def Field.addr (f : Field) (base : Word) : Word := base + BitVec.ofInt 64 f.disp

def Field.shape (f : Field) : Int × Nat := (f.disp, f.width)

def ShapesApart (shapes : List (Int × Nat)) : Prop :=
  shapes.Pairwise fun x y => Apart (BitVec.ofInt 64 x.1) x.2 (BitVec.ofInt 64 y.1) y.2

instance (shapes : List (Int × Nat)) : Decidable (ShapesApart shapes) := inferInstanceAs (Decidable (List.Pairwise _ _))

def writeAll (space base : Word) : List Field → Memory → Memory
  | [], mem => mem
  | f :: fields, mem => writeAll space base fields (storeAt mem space f.width (f.addr base) f.value)

def Slot.field (value : Part → Nat) (x : Slot) : Field := ⟨x.disp, x.part.width, value x.part⟩

def Slot.shape (x : Slot) : Int × Nat := (x.disp, x.part.width)

def saveAll (space base : Word) (value : Part → Nat) (area : List Slot) (mem : Memory) : Memory :=
  writeAll space base (area.map (Slot.field value)) mem

def gateFlags : Word := 0x34300#64

def hardwareFrame (s : Cpu) (code : Option Word) : List Field :=
  [⟨-8, 8, (s.seg .ss).toNat⟩, ⟨-16, 8, (s.reg .rsp).toNat⟩, ⟨-24, 8, s.rflags.toNat⟩, ⟨-32, 8, (s.seg .cs).toNat⟩,
    ⟨-40, 8, s.rip.toNat⟩] ++ (code.map fun e => ⟨-48, 8, e.toNat⟩).toList

/-- An interrupt through a gate: `stack` comes from the interrupt stack table. -/
def Cpu.deliver (s : Cpu) (stack : Word) (selector : BitVec 16) (entry : Word) (code : Option Word) : Cpu :=
  let top := stack &&& ~~~15#64
  { s with
    reg := Function.update s.reg .rsp (top + BitVec.ofInt 64 (if code.isSome then -48 else -40))
    seg := Function.update (Function.update s.seg .cs selector) .ss (if s.seg .cs &&& 3 = 0 then s.seg .ss else 0)
    rip := entry
    rflags := s.rflags &&& ~~~gateFlags
    mem := writeAll s.cr3 top (hardwareFrame s code) s.mem }

/-- `syscall`, with no flag masked. -/
def Cpu.syscall (s : Cpu) (back : Word) : Cpu :=
  { s with
    reg := Function.update (Function.update s.reg .rcx back) .r11 s.rflags
    seg := Function.update (Function.update s.seg .cs ((s.star >>> 32).setWidth 16 &&& 0xfffc)) .ss
      ((s.star >>> 32).setWidth 16 + 8)
    rip := s.lstar }

def Holds (mem : Memory) (space base : Word) (area : List Slot) (value : Part → Nat) : Prop :=
  ∀ x ∈ area, loadAt mem space x.part.width (x.addr base) = value x.part

variable {s : Cpu} {mem : Memory} {space other addr a b : Word} {width w v n i : Nat} {c : Cell}

@[simp] theorem cell_addr (space addr : Word) : (cell space addr).addr = addr := by
  unfold cell
  split <;> rfl

@[simp] theorem cell_eq_iff : cell space a = cell space b ↔ a = b := by
  constructor
  · intro same
    rw [← cell_addr space a, same, cell_addr]
  · intro same
    rw [same]

theorem cell_upper (upper : addr.msb = true) : cell space addr = cell other addr := by
  rw [cell, cell, if_pos upper, if_pos upper]

theorem loadAt_congr {left right : Memory}
    (same : ∀ i < width, left (cell space (addr + BitVec.ofNat 64 i)) = right (cell space (addr + BitVec.ofNat 64 i))) :
    loadAt left space width addr = loadAt right space width addr := by
  apply wordAt_congr
  intro i less
  simp only [Nat.zero_add]
  exact same i less

theorem loadAt_lt (mem : Memory) (space : Word) (width : Nat) (addr : Word) :
    loadAt mem space width addr < 256 ^ width := wordAt_lt _ _ _

theorem offset_toNat (addr : Word) (small : i < 2 ^ 64) : (addr + BitVec.ofNat 64 i - addr).toNat = i := by
  have cancel : addr + BitVec.ofNat 64 i - addr = BitVec.ofNat 64 i := by
    rw [BitVec.add_comm, BitVec.add_sub_cancel]
  rw [cancel, BitVec.toNat_ofNat, Nat.mod_eq_of_lt small]

/-- The cells of the `width` bytes from `addr` on. -/
def Covers (space addr : Word) (width : Nat) (c : Cell) : Prop :=
  c = cell space c.addr ∧ (c.addr - addr).toNat < width

instance (space addr : Word) (width : Nat) (c : Cell) : Decidable (Covers space addr width c) :=
  inferInstanceAs (Decidable (_ ∧ _))

theorem covers_cell : Covers space addr width (cell space a) ↔ (a - addr).toNat < width := by
  rw [Covers, cell_addr]
  exact ⟨fun both => both.2, fun less => ⟨rfl, less⟩⟩

theorem storeAt_other (outside : ¬ Covers space addr width c) : storeAt mem space width addr n c = mem c := by
  rw [storeAt]
  exact if_neg outside

theorem storeAt_inside (less : i < width) (small : width ≤ 2 ^ 64) :
    storeAt mem space width addr n (cell space (addr + BitVec.ofNat 64 i)) = byteOf n i := by
  have offset := offset_toNat addr (Nat.lt_of_lt_of_le less small)
  rw [storeAt, cell_addr, offset, if_pos ⟨rfl, less⟩]

theorem copyAt_other {dst src : Word} (outside : ¬ Covers space dst n c) : copyAt mem space dst src n c = mem c := by
  rw [copyAt]
  exact if_neg outside

theorem copyAt_inside {dst src : Word} (covers : Covers space dst n c) :
    copyAt mem space dst src n c = mem (cell space (src + (c.addr - dst))) := by
  rw [copyAt]
  exact if_pos covers

theorem loadAt_storeAt (mem : Memory) (space addr : Word) (n : Nat) (small : width ≤ 2 ^ 64) :
    loadAt (storeAt mem space width addr n) space width addr = n % 256 ^ width := by
  apply wordAt_stored
  intro i less
  rw [Nat.zero_add]
  exact storeAt_inside less small

theorem loadAt_part {k : Nat} (inside : k + w ≤ v) :
    loadAt mem space w (a + BitVec.ofNat 64 k) = loadAt mem space v a / 256 ^ k % 256 ^ w := by
  apply wordAt_stored
  intro i less
  have whole := @byteOf_wordAt v (fun i => mem (cell space (a + BitVec.ofNat 64 i))) 0 (k + i) (by omega)
  rw [Nat.zero_add] at whole ⊢
  rw [BitVec.add_assoc, ← BitVec.ofNat_add, ← whole, byteOf, byteOf, Nat.div_div_eq_div_mul, ← Nat.pow_add]
  rfl

theorem Apart.symm (apart : Apart a w b v) : Apart b v a w := ⟨apart.2, apart.1⟩

theorem apart_add (base d e : Word) : Apart (base + d) w (base + e) v ↔ Apart d w e v := by
  have cancel : ∀ x y : Word, base + x - (base + y) = x - y := by
    intro x y
    grind
  rw [Apart, Apart, cancel, cancel]

theorem opposite_toNat {gap : Word} (some_gap : 0 < gap.toNat) : (0 - gap).toNat = 2 ^ 64 - gap.toNat := by
  have bound := gap.isLt
  rw [BitVec.toNat_sub]
  exact Nat.mod_eq_of_lt (show 2 ^ 64 - gap.toNat + 0 < 2 ^ 64 by omega)

theorem Apart.excludes (apart : Apart a w b v) (covers : Covers space a w c) : ¬ Covers other b v c := by
  intro inside
  have split : c.addr - a = c.addr - b + (b - a) := by grind
  have opposite : a - b = 0 - (b - a) := by grind
  obtain ⟨room, around⟩ := apart
  have less := covers.2
  have near := inside.2
  rw [split, BitVec.toNat_add] at less
  by_cases none : 0 < (b - a).toNat
  · rw [opposite, opposite_toNat none] at around
    omega
  · have same : a - b = 0 := by
      rw [opposite]
      have zero : b - a = 0 := BitVec.eq_of_toNat_eq (by simpa using none)
      rw [zero]
      rfl
    rw [same] at around
    have empty : v ≤ 0 := around
    omega

theorem Apart.not_covers (apart : Apart a w b v) (less : i < v) :
    ¬ Covers space a w (cell space (b + BitVec.ofNat 64 i)) := by
  intro covers
  have small := Nat.lt_of_le_of_lt apart.2 (a - b).isLt
  apply @Apart.excludes space space a b w v _ apart covers
  rw [covers_cell, offset_toNat b (Nat.lt_trans less small)]
  exact less

theorem gap_sub {gap d e : Word} {m : Nat} (room : n ≤ gap.toNat) (around : m ≤ (0 - gap).toNat)
    (left : d.toNat + w ≤ n) (right : e.toNat + v ≤ m) (some_left : 0 < w) (some_right : 0 < v) :
    w ≤ (gap + e - d).toNat := by
  rw [opposite_toNat (by omega)] at around
  have bound := gap.isLt
  rw [BitVec.toNat_sub, BitVec.toNat_add]
  omega

theorem Apart.sub {d e : Word} {m : Nat} (apart : Apart a n b m) (left : d.toNat + w ≤ n) (right : e.toNat + v ≤ m)
    (some_left : 0 < w) (some_right : 0 < v) : Apart (a + d) w (b + e) v := by
  have forth : b + e - (a + d) = b - a + e - d := by grind
  have back : a + d - (b + e) = a - b + d - e := by grind
  have opposite : a - b = 0 - (b - a) := by grind
  have again : b - a = 0 - (a - b) := by grind
  rw [Apart, forth, back]
  exact ⟨gap_sub apart.1 (opposite ▸ apart.2) left right some_left some_right,
    gap_sub apart.2 (again ▸ apart.1) right left some_right some_left⟩

theorem covers_add {d : Word} (inside : d.toNat + i < n) (small : n ≤ 2 ^ 64) :
    Covers space a n (cell space (a + d + BitVec.ofNat 64 i)) := by
  rw [covers_cell]
  have cancel : a + d + BitVec.ofNat 64 i - a = d + BitVec.ofNat 64 i := by grind
  rw [cancel, BitVec.toNat_add, BitVec.toNat_ofNat]
  omega

theorem loadAt_of_covers {left right : Memory} {d : Word} (same : ∀ c, Covers space a n c → left c = right c)
    (inside : d.toNat + w ≤ n) (small : n ≤ 2 ^ 64) : loadAt left space w (a + d) = loadAt right space w (a + d) :=
  loadAt_congr fun _ less => same _ (covers_add (by omega) small)

theorem Covers.sub {d : Word} {m : Nat} (covers : Covers space (a + d) m c) (inside : d.toNat + m ≤ n) :
    Covers space a n c := by
  refine ⟨covers.1, ?_⟩
  have less := covers.2
  bv_omega

/-- Bytes of the upper half are read alike in all address spaces. -/
theorem loadAt_upper (upper : ∀ i < w, (a + BitVec.ofNat 64 i).msb = true) :
    loadAt mem space w a = loadAt mem other w a := by
  apply wordAt_congr
  intro i less
  simp only [Nat.zero_add]
  rw [cell_upper (upper i less)]

theorem loadAt_storeAt_apart (apart : Apart a w b v) :
    loadAt (storeAt mem space w a n) space v b = loadAt mem space v b :=
  loadAt_congr fun _ less => storeAt_other (apart.not_covers less)

theorem run_append (s : Cpu) (first second : List Instr) : s.run (first ++ second) = (s.run first).run second := by
  rw [Cpu.run, List.foldl_append]
  rfl

@[simp] theorem Cpu.reg_setReg (s : Cpu) (r q : Reg) (v : Word) :
    (s.setReg r v).reg q = if q = r then v else s.reg q := Function.update_apply s.reg r v q

@[simp] theorem Cpu.seg_setSeg (s : Cpu) (g h : Seg) (v : BitVec 16) :
    (s.setSeg g v).seg h = if h = g then v else s.seg h := Function.update_apply s.seg g v h

@[simp] theorem Cpu.mem_setReg (s : Cpu) (r : Reg) (v : Word) : (s.setReg r v).mem = s.mem := rfl

@[simp] theorem Cpu.cr3_setReg (s : Cpu) (r : Reg) (v : Word) : (s.setReg r v).cr3 = s.cr3 := rfl

@[simp] theorem Cpu.get_setReg (s : Cpu) (r : Reg) (v : Word) : (s.setReg r v).get addr = s.get addr := rfl

@[simp] theorem Cpu.reg_put (s : Cpu) (v : Word) : (s.put addr v).reg = s.reg := rfl

@[simp] theorem Cpu.cr3_put (s : Cpu) (v : Word) : (s.put addr v).cr3 = s.cr3 := rfl

theorem word_of_load (mem : Memory) (space addr : Word) :
    (BitVec.ofNat 64 (loadAt mem space 8 addr)).toNat = loadAt mem space 8 addr := by
  rw [BitVec.toNat_ofNat]
  exact Nat.mod_eq_of_lt (loadAt_lt mem space 8 addr)

theorem Cpu.get_put (s : Cpu) (addr v : Word) : (s.put addr v).get addr = v := by
  apply BitVec.eq_of_toNat_eq
  rw [Cpu.get, word_of_load, Cpu.put, loadAt_storeAt _ _ _ _ (by decide)]
  exact Nat.mod_eq_of_lt v.isLt

theorem Cpu.get_put_apart {v : Word} (apart : Apart a 8 b 8) : (s.put a v).get b = s.get b := by
  rw [Cpu.get, Cpu.get, Cpu.put, loadAt_storeAt_apart apart]

variable {base : Word} {fields : List Field} {area : List Slot} {value : Part → Nat} {x : Slot} {p : Part}

theorem Part.width_le (p : Part) : p.width ≤ 8 := by
  cases p with
  | reg r => exact Nat.le_refl 8
  | seg g => exact (by decide : 2 ≤ 8)

theorem Part.width_pos (p : Part) : 0 < p.width := by
  cases p with
  | reg r => exact (by decide : 0 < 8)
  | seg g => exact (by decide : 0 < 2)

theorem Cpu.part_lt (s : Cpu) (p : Part) : s.part p < 256 ^ p.width := by
  cases p with
  | reg r => exact (s.reg r).isLt
  | seg g => exact (s.seg g).isLt

theorem run_saves (s : Cpu) (area : List Slot) :
    s.run (saves area) = { s with mem := saveAll s.cr3 (s.reg .rbp) s.part area s.mem } := by
  induction area generalizing s with
  | nil => rfl
  | cons x area ih =>
    have one : s.exec x.save =
        { s with mem := storeAt s.mem s.cr3 x.part.width (x.addr (s.reg .rbp)) (s.part x.part) } := by
      cases same : x.part with
      | reg r =>
        rw [Slot.save, same]
        rfl
      | seg g =>
        rw [Slot.save, same]
        rfl
    have parts : ∀ m, Cpu.part { s with mem := m } = s.part := by
      intro m
      funext p
      cases p <;> rfl
    rw [saves, List.map_cons, Cpu.run, List.foldl_cons, one, ← Cpu.run, ← saves, ih, parts]
    rfl

theorem writeAll_append (fields more : List Field) :
    writeAll space base (fields ++ more) mem = writeAll space base more (writeAll space base fields mem) := by
  induction fields generalizing mem with
  | nil => rfl
  | cons f fields ih => exact ih

theorem writeAll_other (outside : ∀ f ∈ fields, ¬ Covers space (f.addr base) f.width c) :
    writeAll space base fields mem c = mem c := by
  induction fields generalizing mem with
  | nil => rfl
  | cons f fields ih =>
    rw [writeAll, ih fun g member => outside g (List.mem_cons_of_mem f member)]
    exact storeAt_other (outside f (List.mem_cons_self ..))

theorem loadAt_writeAll_apart (apart : ∀ f ∈ fields, Apart (f.addr base) f.width b v) :
    loadAt (writeAll space base fields mem) space v b = loadAt mem space v b := by
  induction fields generalizing mem with
  | nil => rfl
  | cons f fields ih =>
    rw [writeAll, ih fun g member => apart g (List.mem_cons_of_mem f member)]
    exact loadAt_storeAt_apart (apart f (List.mem_cons_self ..))

theorem loadAt_writeAll (apart : ShapesApart (fields.map Field.shape)) (small : ∀ f ∈ fields, f.width ≤ 8)
    (fits : ∀ f ∈ fields, f.value < 256 ^ f.width) {f : Field} (member : f ∈ fields) :
    loadAt (writeAll space base fields mem) space f.width (f.addr base) = f.value := by
  induction fields generalizing mem with
  | nil => cases member
  | cons g fields ih =>
    obtain ⟨first, rest⟩ := List.pairwise_cons.mp apart
    rcases List.mem_cons.mp member with same | later
    · rw [same, writeAll, loadAt_writeAll_apart, loadAt_storeAt, Nat.mod_eq_of_lt (fits g (List.mem_cons_self ..))]
      · exact Nat.le_trans (small g (List.mem_cons_self ..)) (by decide)
      · intro h inside
        exact (apart_add base _ _).mpr (first _ (List.mem_map_of_mem inside)).symm
    · exact ih rest (fun h inside => small h (List.mem_cons_of_mem g inside))
        (fun h inside => fits h (List.mem_cons_of_mem g inside)) later

theorem saveAll_other (outside : ∀ x ∈ area, ¬ Covers space (x.addr base) x.part.width c) :
    saveAll space base value area mem c = mem c := by
  apply writeAll_other
  intro f member
  obtain ⟨x, inside, same⟩ := List.mem_map.mp member
  rw [← same]
  exact outside x inside

theorem loadAt_saveAll_apart (apart : ∀ x ∈ area, Apart (x.addr base) x.part.width b v) :
    loadAt (saveAll space base value area mem) space v b = loadAt mem space v b := by
  apply loadAt_writeAll_apart
  intro f member
  obtain ⟨x, inside, same⟩ := List.mem_map.mp member
  rw [← same]
  exact apart x inside

theorem saveAll_holds (apart : ShapesApart (area.map Slot.shape))
    (fits : ∀ x ∈ area, value x.part < 256 ^ x.part.width) :
    Holds (saveAll space base value area mem) space base area value := by
  intro x member
  have shapes : (area.map (Slot.field value)).map Field.shape = area.map Slot.shape := List.map_map
  refine loadAt_writeAll (shapes ▸ apart) ?_ ?_ (List.mem_map_of_mem (f := Slot.field value) member)
  · intro f inside
    obtain ⟨y, _, same⟩ := List.mem_map.mp inside
    rw [← same]
    exact y.part.width_le
  · intro f inside
    obtain ⟨y, listed, same⟩ := List.mem_map.mp inside
    rw [← same]
    exact fits y listed

theorem Holds.congr {left right : Memory} (holds : Holds left space base area value)
    (same : ∀ x ∈ area, loadAt right space x.part.width (x.addr base) = loadAt left space x.part.width (x.addr base)) :
    Holds right space base area value := fun x member => (same x member).trans (holds x member)

structure Restored (area : List Slot) (s after : Cpu) : Prop where
  mem : after.mem = s.mem
  cr3 : after.cr3 = s.cr3
  rip : after.rip = s.rip
  rflags : after.rflags = s.rflags
  star : after.star = s.star
  lstar : after.lstar = s.lstar
  outs : after.outs = s.outs
  kept : ∀ p, p ∉ area.map Slot.part → after.part p = s.part p
  loaded : ∀ x ∈ area, after.part x.part = loadAt s.mem s.cr3 x.part.width (x.addr (s.reg .rbp))

theorem exec_restore (s : Cpu) (x : Slot) : Restored [x] s (s.exec x.restore) := by
  cases same : x.part with
  | reg r =>
    rw [Slot.restore, same]
    refine ⟨rfl, rfl, rfl, rfl, rfl, rfl, rfl, ?_, ?_⟩
    · intro p other
      rw [List.map_singleton, List.mem_singleton, same] at other
      cases p with
      | reg q =>
        have different : q ≠ r := fun equal => other (by rw [equal])
        rw [Cpu.part, Cpu.exec, Cpu.reg_setReg, if_neg different]
        rfl
      | seg g => rfl
    · intro y member
      rw [List.mem_singleton.mp member, same, Cpu.part, Cpu.exec, Cpu.reg_setReg, if_pos rfl, Cpu.get, word_of_load]
      rfl
  | seg g =>
    rw [Slot.restore, same]
    refine ⟨rfl, rfl, rfl, rfl, rfl, rfl, rfl, ?_, ?_⟩
    · intro p other
      rw [List.map_singleton, List.mem_singleton, same] at other
      cases p with
      | reg q => rfl
      | seg h =>
        have different : h ≠ g := fun equal => other (by rw [equal])
        rw [Cpu.part, Cpu.exec, Cpu.seg_setSeg, if_neg different]
        rfl
    · intro y member
      rw [List.mem_singleton.mp member, same, Cpu.part, Cpu.exec, Cpu.seg_setSeg, if_pos rfl, BitVec.toNat_ofNat]
      exact Nat.mod_eq_of_lt (loadAt_lt s.mem s.cr3 2 _)

theorem Cpu.reg_of_part {left right : Cpu} {r : Reg} (same : left.part (.reg r) = right.part (.reg r)) :
    left.reg r = right.reg r := BitVec.eq_of_toNat_eq same

theorem run_restores (s : Cpu) (based : .reg .rbp ∉ area.map Slot.part) (nodup : (area.map Slot.part).Nodup) :
    Restored area s (s.run (restores area)) := by
  induction area generalizing s with
  | nil => exact ⟨rfl, rfl, rfl, rfl, rfl, rfl, rfl, fun _ _ => rfl, fun _ member => by cases member⟩
  | cons x area ih =>
    rw [List.map_cons, List.mem_cons, not_or] at based
    rw [List.map_cons, List.nodup_cons] at nodup
    have first := exec_restore s x
    have rest := ih (s.exec x.restore) based.2 nodup.2
    have rbp : (s.exec x.restore).reg .rbp = s.reg .rbp := by
      apply Cpu.reg_of_part
      apply first.kept
      simpa using based.1
    refine ⟨rest.mem.trans first.mem, rest.cr3.trans first.cr3, rest.rip.trans first.rip,
      rest.rflags.trans first.rflags, rest.star.trans first.star, rest.lstar.trans first.lstar,
      rest.outs.trans first.outs, ?_, ?_⟩
    · intro p other
      rw [List.map_cons, List.mem_cons, not_or] at other
      exact (rest.kept p other.2).trans (first.kept p (by simpa using other.1))
    · intro y member
      rcases List.mem_cons.mp member with same | later
      · rw [same]
        exact (rest.kept x.part nodup.1).trans (first.loaded x (List.mem_singleton_self x))
      · have loaded := rest.loaded y later
        rw [first.mem, first.cr3, rbp] at loaded
        exact loaded

structure Left (s after : Cpu) : Prop where
  mem : after.mem = s.mem
  cr3 : after.cr3 = s.cr3
  star : after.star = s.star
  lstar : after.lstar = s.lstar
  rflags : after.rflags = s.rflags
  outs : after.outs = s.outs
  seg : after.seg = s.seg
  rbp : after.reg .rbp = s.get (s.reg .rbp)
  rsp : after.reg .rsp = s.reg .rbp + 16
  rip : after.rip = s.get (s.reg .rbp + 8)
  kept : ∀ r, r ≠ .rbp → r ≠ .rsp → after.reg r = s.reg r

theorem run_leave_ret (s : Cpu) : Left s (s.run [.leave, .ret]) := by
  refine ⟨rfl, rfl, rfl, rfl, rfl, rfl, rfl, ?_, ?_, ?_, ?_⟩
  · simp [Cpu.run, Cpu.exec, Cpu.drop]
  · simp [Cpu.run, Cpu.exec, Cpu.drop, Cpu.ea, BitVec.add_assoc]
  · simp [Cpu.run, Cpu.exec, Cpu.top, Cpu.ea]
  · intro r frame stack
    simp [Cpu.run, Cpu.exec, Cpu.drop, frame, stack]

structure LeftInterrupt (s after : Cpu) : Prop where
  mem : after.mem = s.mem
  cr3 : after.cr3 = s.cr3
  star : after.star = s.star
  outs : after.outs = s.outs
  rbp : after.reg .rbp = s.get (s.reg .rbp)
  rip : after.rip = s.get (s.reg .rbp + 16)
  cs : after.seg .cs = (s.get (s.reg .rbp + 24)).setWidth 16
  rflags : after.rflags = s.get (s.reg .rbp + 32)
  rsp : after.reg .rsp = s.get (s.reg .rbp + 40)
  ss : after.seg .ss = (s.get (s.reg .rbp + 48)).setWidth 16
  kept : ∀ r, r ≠ .rbp → r ≠ .rsp → after.reg r = s.reg r
  keptSeg : ∀ g, g ≠ .cs → g ≠ .ss → after.seg g = s.seg g

theorem run_leave_iretq (s : Cpu) : LeftInterrupt s (s.run [.leave, .addImm 8 .rsp, .iretq]) := by
  constructor
  case kept =>
    intro r frame stack
    simp [Cpu.run, Cpu.exec, frame, stack]
  case keptSeg =>
    intro g code stack
    simp [Cpu.run, Cpu.exec, Cpu.setReg, code, stack]
  all_goals simp [Cpu.run, Cpu.exec, Cpu.setReg, Cpu.top, Cpu.get, Cpu.ea, BitVec.add_assoc]

structure LeftSystem (s after : Cpu) : Prop where
  mem : after.mem = s.mem
  cr3 : after.cr3 = s.cr3
  star : after.star = s.star
  rbp : after.reg .rbp = s.get (s.reg .rbp)
  rsp : after.reg .rsp = s.reg .rbp + 8
  rip : after.rip = s.reg .rcx
  rflags : after.rflags = sysretFlags (s.reg .r11)
  cs : after.seg .cs = ((s.star >>> 48).setWidth 16 + 16 ||| 3)
  ss : after.seg .ss = ((s.star >>> 48).setWidth 16 + 8 ||| 3)
  kept : ∀ r, r ≠ .rbp → r ≠ .rsp → after.reg r = s.reg r

theorem run_leave_sysretq (s : Cpu) : LeftSystem s (s.run [.leave, .sysretq]) := by
  constructor
  case kept =>
    intro r frame stack
    simp [Cpu.run, Cpu.exec, frame, stack]
  all_goals simp [Cpu.run, Cpu.exec, Cpu.setReg, Cpu.get, Cpu.ea]

def calleeSaved : List Reg := [.rbx, .rbp, .r12, .r13, .r14, .r15]

/-- A function that was called in `before` has returned in `after` and has kept its caller's cells `own`. -/
structure Returns (own : Cell → Prop) (before after : Cpu) : Prop where
  rip : after.rip = before.top
  rsp : after.reg .rsp = before.reg .rsp + 8
  kept : ∀ r ∈ calleeSaved, after.reg r = before.reg r
  cr3 : after.cr3 = before.cr3
  star : after.star = before.star
  mem : ∀ c, own c → after.mem c = before.mem c

def blank (cr3 : Word) (reg : Reg → Word) : Cpu where
  reg := reg
  seg := fun _ => 0
  rip := 0
  rflags := 2
  cr3 := cr3
  star := 0
  lstar := 0
  mem := fun _ => 0
  outs := []

theorem loadAt_blank (space addr : Word) (w : Nat) : loadAt (fun _ => 0) space w addr = 0 :=
  wordAt_zero fun _ _ => rfl

end Amd64
