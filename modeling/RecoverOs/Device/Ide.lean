import Mathlib.Data.List.Range
import Mathlib.Data.Nat.Bitwise
import RecoverOs.Basic

namespace RecoverOs.Device

inductive HD where
  | ata0m
  | ata0s
  | ata1m
  | ata1s
  deriving DecidableEq, Repr

def HD.number : HD → Nat
  | .ata0m => 0
  | .ata0s => 1
  | .ata1m => 2
  | .ata1s => 3

def HD.slave : HD → Bool
  | .ata0m | .ata1m => false
  | .ata0s | .ata1s => true

/-- `addr` is the address of the buffer and `count` the number of words of two bytes. -/
inductive PortOp where
  | outb (port : Nat) (value : UInt8)
  | insw (port addr count : Nat)
  | outsw (port addr count : Nat)
  deriving DecidableEq, Repr

def PortOp.dataPort : PortOp → Option Nat
  | .outb _ _ => none
  | .insw port _ _ | .outsw port _ _ => some port

def portBase (hd : HD) : Nat := 0x1f0 + 0x80 * (hd.number / 2)
def regData (hd : HD) : Nat := portBase hd + 0
def regSectCnt (hd : HD) : Nat := portBase hd + 2
def regLbaL (hd : HD) : Nat := portBase hd + 3
def regLbaM (hd : HD) : Nat := portBase hd + 4
def regLbaH (hd : HD) : Nat := portBase hd + 5
def regDev (hd : HD) : Nat := portBase hd + 6
def regCmd (hd : HD) : Nat := portBase hd + 7

def bitDevMbs : Nat := 0xa0
def bitDevLba : Nat := 0x40
def bitDevDev : Nat := 0x10

def cmdReadSector : UInt8 := 0x20
def cmdWriteSector : UInt8 := 0x30

def devBit (hd : HD) : Nat := if hd.number = 1 then bitDevDev else 0

def selectDisk (hd : HD) : List PortOp :=
  [.outb (regDev hd) (UInt8.ofNat (bitDevMbs ||| bitDevLba ||| devBit hd))]

def selectSector (hd : HD) (lba : Nat) (secCnt : UInt8) : List PortOp :=
  [.outb (regSectCnt hd) secCnt, .outb (regLbaL hd) (UInt8.ofNat lba), .outb (regLbaM hd) (UInt8.ofNat (lba >>> 8)),
    .outb (regLbaH hd) (UInt8.ofNat (lba >>> 16)),
    .outb (regDev hd) (UInt8.ofNat (bitDevMbs ||| bitDevLba ||| devBit hd ||| lba >>> 24))]

def cmdOut (hd : HD) (cmd : UInt8) : List PortOp := [.outb (regCmd hd) cmd]

def sizeInByte (secCnt : UInt8) : Nat := if secCnt = 0 then 256 * 512 else secCnt.toNat * 512

def readFromSector (hd : HD) (buf : Nat) (secCnt : UInt8) : List PortOp :=
  [.insw (regData hd) buf (sizeInByte secCnt / 2)]

def write2sector (hd : HD) (buf : Nat) (secCnt : UInt8) : List PortOp :=
  [.outsw (regData hd) buf (sizeInByte secCnt / 2)]

def secsOp (secCnt secsDone : Nat) : Nat := if 256 ≤ secCnt - secsDone then 256 else secCnt - secsDone

def ideLoop (secCnt : Nat) (turn : Nat → List PortOp) (secsDone : Nat) : List PortOp :=
  if secsDone ≤ secCnt then turn secsDone ++ ideLoop secCnt turn (secsDone + 256) else []
termination_by secCnt + 1 - secsDone

/-- The disk becomes ready in time and raises its interrupt, so `busy_wait` and `sema_down` are left out. -/
def ideRead (hdCnt : Nat) (hd : HD) (lba buf secCnt : Nat) : Except Halt (List PortOp) := do
  assert (decide (0 < secCnt ∧ hd.number < hdCnt))
  return selectDisk hd ++ ideLoop secCnt (fun secsDone =>
    let op := UInt8.ofNat (secsOp secCnt secsDone)
    selectSector hd (lba + secsDone) op ++ cmdOut hd cmdReadSector ++ readFromSector hd (buf + secsDone * 512) op) 0

def ideWrite (hdCnt : Nat) (hd : HD) (lba buf secCnt : Nat) : Except Halt (List PortOp) := do
  assert (decide (0 < secCnt ∧ hd.number < hdCnt))
  return selectDisk hd ++ ideLoop secCnt (fun secsDone =>
    let op := UInt8.ofNat (secsOp secCnt secsDone)
    selectSector hd (lba + secsDone) op ++ cmdOut hd cmdWriteSector ++ write2sector hd (buf + secsDone * 512) op) 0

structure Transfer where
  slave : Bool
  sector : Nat
  count : Nat
  addr : Nat
  size : Nat
  deriving DecidableEq, Repr

/-- The registers of the channel; `command` has been given and waits for its data. -/
structure Channel where
  sectCnt : UInt8
  lbaL : UInt8
  lbaM : UInt8
  lbaH : UInt8
  dev : UInt8
  command : Option UInt8
  deriving DecidableEq, Repr

/-- A count of 0 means 256 sectors, and the low four bits of the device register are the high bits of the sector. -/
def Channel.transfer (c : Channel) (addr size : Nat) : Transfer where
  slave := (c.dev &&& 0x10) != 0
  sector := c.lbaL.toNat + c.lbaM.toNat * 2 ^ 8 + c.lbaH.toNat * 2 ^ 16 + (c.dev &&& 0x0f).toNat * 2 ^ 24
  count := if c.sectCnt = 0 then 256 else c.sectCnt.toNat
  addr := addr
  size := size

/-- One access to a channel with its registers from port `base` on, and the transfer it makes. 0x20 is the command
    READ SECTORS of the disk and 0x30 is WRITE SECTORS. -/
def Channel.step (base : Nat) (c : Channel) : PortOp → Channel × Option Transfer
  | .outb port value =>
    if port = base + 2 then ({ c with sectCnt := value }, none)
    else if port = base + 3 then ({ c with lbaL := value }, none)
    else if port = base + 4 then ({ c with lbaM := value }, none)
    else if port = base + 5 then ({ c with lbaH := value }, none)
    else if port = base + 6 then ({ c with dev := value }, none)
    else if port = base + 7 then ({ c with command := some value }, none)
    else (c, none)
  | .insw port addr count =>
    if port = base ∧ c.command = some 0x20 then
      ({ c with command := none }, some (c.transfer addr (2 * count)))
    else (c, none)
  | .outsw port addr count =>
    if port = base ∧ c.command = some 0x30 then
      ({ c with command := none }, some (c.transfer addr (2 * count)))
    else (c, none)

def Channel.transfers (base : Nat) : Channel → List PortOp → List Transfer
  | _, [] => []
  | c, op :: ops => (c.step base op).2.toList ++ Channel.transfers base (c.step base op).1 ops

def chunk (hd : HD) (lba buf secCnt secsDone : Nat) : Transfer where
  slave := UInt8.ofNat (bitDevMbs ||| bitDevLba ||| devBit hd ||| (lba + secsDone) >>> 24) &&& 0x10 != 0
  sector := (lba + secsDone) % 2 ^ 28
  count := if secsOp secCnt secsDone = 0 then 256 else secsOp secCnt secsDone
  addr := buf + secsDone * 512
  size := 512 * if secsOp secCnt secsDone = 0 then 256 else secsOp secCnt secsDone

theorem secsOp_le (secCnt secsDone : Nat) : secsOp secCnt secsDone ≤ 256 := by
  unfold secsOp
  split <;> omega

theorem dev_low (hd : HD) (high : Nat) :
    (UInt8.ofNat (bitDevMbs ||| bitDevLba ||| devBit hd ||| high) &&& 0x0f).toNat = high % 16 := by
  have fixed : (bitDevMbs ||| bitDevLba ||| devBit hd) % 2 ^ 4 = 0 := by cases hd <;> rfl
  have low : (bitDevMbs ||| bitDevLba ||| devBit hd ||| high) % 2 ^ 4 = high % 2 ^ 4 := by
    rw [Nat.or_mod_two_pow, fixed, Nat.zero_or]
  have mask : (0x0f : UInt8).toNat = 2 ^ 4 - 1 := rfl
  rw [UInt8.toNat_and, mask, Nat.and_two_pow_sub_one_eq_mod, UInt8.toNat_ofNat']
  omega

theorem lba_registers (hd : HD) (lba : Nat) :
    (UInt8.ofNat lba).toNat + (UInt8.ofNat (lba >>> 8)).toNat * 2 ^ 8 + (UInt8.ofNat (lba >>> 16)).toNat * 2 ^ 16 +
      (UInt8.ofNat (bitDevMbs ||| bitDevLba ||| devBit hd ||| lba >>> 24) &&& 0x0f).toNat * 2 ^ 24 = lba % 2 ^ 28 := by
  rw [dev_low]
  simp only [UInt8.toNat_ofNat', Nat.shiftRight_eq_div_pow]
  omega

theorem dev_slave (hd : HD) {high : Nat} (small : high < 16) :
    (UInt8.ofNat (bitDevMbs ||| bitDevLba ||| devBit hd ||| high) &&& 0x10 != 0) = decide (hd = .ata0s) := by
  revert high
  cases hd <;> decide

theorem secCnt_decoded {op : Nat} (le : op ≤ 256) :
    (if UInt8.ofNat op = 0 then 256 else (UInt8.ofNat op).toNat) = (if op = 0 then 256 else op) ∧
      2 * (sizeInByte (UInt8.ofNat op) / 2) = 512 * if op = 0 then 256 else op := by
  have value : (UInt8.ofNat op).toNat = op % 256 := UInt8.toNat_ofNat'
  unfold sizeInByte
  by_cases zero : UInt8.ofNat op = 0
  · have none_or_all : op % 256 = 0 := by
      rw [← value, zero]
      rfl
    rw [if_pos zero, if_pos zero]
    split <;> omega
  · have some_left : op % 256 ≠ 0 := by
      intro none
      apply zero
      apply UInt8.toNat_inj.mp
      rw [value, none]
      rfl
    rw [if_neg zero, if_neg zero, value]
    split <;> omega

def selected (hd : HD) (lba : Nat) (secCnt : UInt8) (command : Option UInt8) : Channel where
  sectCnt := secCnt
  lbaL := UInt8.ofNat lba
  lbaM := UInt8.ofNat (lba >>> 8)
  lbaH := UInt8.ofNat (lba >>> 16)
  dev := UInt8.ofNat (bitDevMbs ||| bitDevLba ||| devBit hd ||| lba >>> 24)
  command := command

theorem transfers_selectDisk (hd : HD) (c : Channel) (ops : List PortOp) :
    ∃ dev, c.transfers (portBase hd) (selectDisk hd ++ ops) =
      Channel.transfers (portBase hd) { c with dev := dev } ops := by
  refine ⟨UInt8.ofNat (bitDevMbs ||| bitDevLba ||| devBit hd), ?_⟩
  simp [selectDisk, Channel.transfers, Channel.step, regDev]

theorem transfers_selectSector (hd : HD) (c : Channel) (lba : Nat) (secCnt : UInt8) (ops : List PortOp) :
    c.transfers (portBase hd) (selectSector hd lba secCnt ++ ops) =
      (selected hd lba secCnt c.command).transfers (portBase hd) ops := by
  simp [selectSector, Channel.transfers, Channel.step, regSectCnt, regLbaL, regLbaM, regLbaH, regDev, selected]

theorem transfers_cmdOut (hd : HD) (c : Channel) (cmd : UInt8) (ops : List PortOp) :
    c.transfers (portBase hd) (cmdOut hd cmd ++ ops) =
      Channel.transfers (portBase hd) { c with command := some cmd } ops := by
  simp [cmdOut, Channel.transfers, Channel.step, regCmd]

theorem transfers_readFromSector {hd : HD} {c : Channel} (given : c.command = some cmdReadSector) (buf : Nat)
    (secCnt : UInt8) (ops : List PortOp) :
    c.transfers (portBase hd) (readFromSector hd buf secCnt ++ ops) =
      c.transfer buf (2 * (sizeInByte secCnt / 2)) ::
        Channel.transfers (portBase hd) { c with command := none } ops := by
  simp [readFromSector, Channel.transfers, Channel.step, regData, given, cmdReadSector]

theorem transfers_write2sector {hd : HD} {c : Channel} (given : c.command = some cmdWriteSector) (buf : Nat)
    (secCnt : UInt8) (ops : List PortOp) :
    c.transfers (portBase hd) (write2sector hd buf secCnt ++ ops) =
      c.transfer buf (2 * (sizeInByte secCnt / 2)) ::
        Channel.transfers (portBase hd) { c with command := none } ops := by
  simp [write2sector, Channel.transfers, Channel.step, regData, given, cmdWriteSector]

theorem selected_transfer (hd : HD) (lba buf secCnt secsDone : Nat) (command : Option UInt8) :
    (selected hd (lba + secsDone) (UInt8.ofNat (secsOp secCnt secsDone)) command).transfer (buf + secsDone * 512)
      (2 * (sizeInByte (UInt8.ofNat (secsOp secCnt secsDone)) / 2)) = chunk hd lba buf secCnt secsDone := by
  obtain ⟨count, size⟩ := secCnt_decoded (secsOp_le secCnt secsDone)
  rw [Channel.transfer, chunk, size]
  congr 1
  exact lba_registers hd (lba + secsDone)

def turns (secCnt secsDone : Nat) : Nat := (secCnt + 256 - secsDone) / 256

def chunks (hd : HD) (lba buf secCnt secsDone : Nat) : List Transfer :=
  (List.range' secsDone (turns secCnt secsDone) 256).map (chunk hd lba buf secCnt)

theorem chunks_succ (hd : HD) (lba buf : Nat) {secCnt secsDone : Nat} (more : secsDone ≤ secCnt) :
    chunks hd lba buf secCnt secsDone =
      chunk hd lba buf secCnt secsDone :: chunks hd lba buf secCnt (secsDone + 256) := by
  have one_more : turns secCnt secsDone = turns secCnt (secsDone + 256) + 1 := by
    unfold turns
    omega
  rw [chunks, one_more, List.range'_succ, List.map_cons]
  rfl

theorem chunks_done (hd : HD) (lba buf : Nat) {secCnt secsDone : Nat} (done : ¬ secsDone ≤ secCnt) :
    chunks hd lba buf secCnt secsDone = [] := by
  have none_left : turns secCnt secsDone = 0 := by
    unfold turns
    omega
  rw [chunks, none_left]
  rfl

theorem transfers_ideLoop {hd : HD} {lba buf secCnt : Nat} {turn : Nat → List PortOp}
    (makes : ∀ (c : Channel) secsDone ops, ∃ after, c.transfers (portBase hd) (turn secsDone ++ ops) =
      chunk hd lba buf secCnt secsDone :: Channel.transfers (portBase hd) after ops) (c : Channel) (secsDone : Nat) :
    c.transfers (portBase hd) (ideLoop secCnt turn secsDone) = chunks hd lba buf secCnt secsDone := by
  induction secsDone using ideLoop.induct secCnt generalizing c with
  | case1 secsDone more ih =>
    obtain ⟨after, made⟩ := makes c secsDone (ideLoop secCnt turn (secsDone + 256))
    rw [ideLoop, if_pos more, made, chunks_succ hd lba buf more, ih]
  | case2 secsDone done =>
    rw [ideLoop, if_neg done, chunks_done hd lba buf done]
    rfl

theorem transfers_turn {hd : HD} {cmd : UInt8} {data : List PortOp} {lba buf secCnt secsDone : Nat}
    (moves : ∀ c : Channel, c.command = some cmd → ∀ ops, c.transfers (portBase hd) (data ++ ops) =
      c.transfer (buf + secsDone * 512) (2 * (sizeInByte (UInt8.ofNat (secsOp secCnt secsDone)) / 2)) ::
        Channel.transfers (portBase hd) { c with command := none } ops) (c : Channel) (ops : List PortOp) :
    c.transfers (portBase hd) (selectSector hd (lba + secsDone) (UInt8.ofNat (secsOp secCnt secsDone)) ++
      cmdOut hd cmd ++ data ++ ops) = chunk hd lba buf secCnt secsDone ::
        (selected hd (lba + secsDone) (UInt8.ofNat (secsOp secCnt secsDone)) none).transfers (portBase hd) ops := by
  rw [List.append_assoc, List.append_assoc, transfers_selectSector, transfers_cmdOut, moves _ rfl,
    ← selected_transfer hd lba buf secCnt secsDone (some cmd)]
  rfl

theorem transfers_call {hd : HD} {cmd : UInt8} {data : Nat → UInt8 → List PortOp} {lba buf secCnt : Nat}
    (moves : ∀ (c : Channel) addr op ops, c.command = some cmd → c.transfers (portBase hd) (data addr op ++ ops) =
      c.transfer addr (2 * (sizeInByte op / 2)) :: Channel.transfers (portBase hd) { c with command := none } ops)
    (c : Channel) :
    c.transfers (portBase hd) (selectDisk hd ++ ideLoop secCnt (fun secsDone =>
      selectSector hd (lba + secsDone) (UInt8.ofNat (secsOp secCnt secsDone)) ++ cmdOut hd cmd ++
        data (buf + secsDone * 512) (UInt8.ofNat (secsOp secCnt secsDone))) 0) = chunks hd lba buf secCnt 0 := by
  obtain ⟨dev, at_disk⟩ := transfers_selectDisk hd c _
  rw [at_disk]
  apply transfers_ideLoop
  intro c secsDone ops
  exact ⟨_, transfers_turn (fun c given ops => moves c _ _ ops given) c ops⟩

theorem transfers_elsewhere {base : Nat} {c : Channel} {ops : List PortOp}
    (other : ∀ op ∈ ops, op.dataPort ≠ some base) : c.transfers base ops = [] := by
  induction ops generalizing c with
  | nil => rfl
  | cons op ops ih =>
    have apart := other op (List.mem_cons_self ..)
    have silent : (c.step base op).2 = none := by
      cases op with
      | outb port value => simp only [Channel.step, apply_ite Prod.snd, ite_self]
      | insw port addr count | outsw port addr count =>
        have distinct : port ≠ base := fun same => apart (congrArg some same)
        rw [Channel.step, if_neg fun both => distinct both.1]
    rw [Channel.transfers, silent]
    exact ih fun later member => other later (List.mem_cons_of_mem _ member)

theorem mem_ideLoop {secCnt secsDone : Nat} {turn : Nat → List PortOp} {op : PortOp}
    (member : op ∈ ideLoop secCnt turn secsDone) : ∃ secsDone, op ∈ turn secsDone := by
  induction secsDone using ideLoop.induct secCnt with
  | case1 secsDone more ih =>
    rw [ideLoop, if_pos more, List.mem_append] at member
    rcases member with here | later
    · exact ⟨secsDone, here⟩
    · exact ih later
  | case2 secsDone done =>
    rw [ideLoop, if_neg done] at member
    cases member

theorem transfers_call_elsewhere {hd : HD} {cmd : UInt8} {data : Nat → UInt8 → List PortOp} {base lba buf secCnt : Nat}
    (ports : ∀ addr op, ∀ access ∈ data addr op, access.dataPort = some (regData hd)) (other : base ≠ portBase hd)
    (c : Channel) : c.transfers base (selectDisk hd ++ ideLoop secCnt (fun secsDone =>
      selectSector hd (lba + secsDone) (UInt8.ofNat (secsOp secCnt secsDone)) ++ cmdOut hd cmd ++
        data (buf + secsDone * 512) (UInt8.ofNat (secsOp secCnt secsDone))) 0) = [] := by
  apply transfers_elsewhere
  intro op member
  have registers : ∀ ops : List PortOp, (∀ access ∈ ops, access.dataPort = none) → op ∈ ops →
      op.dataPort ≠ some base := by
    intro ops all here
    rw [all op here]
    exact (Option.some_ne_none base).symm
  rcases List.mem_append.mp member with select | loop
  · exact registers _ (by simp [selectDisk, PortOp.dataPort]) select
  · obtain ⟨secsDone, turn⟩ := mem_ideLoop loop
    rcases List.mem_append.mp turn with set | moved
    · exact registers _ (by simp [selectSector, cmdOut, PortOp.dataPort]) set
    · rw [ports _ _ op moved]
      exact fun same => other (Option.some.inj same).symm

theorem ideRead_ok {hdCnt : Nat} {hd : HD} {secCnt : Nat} (lba buf : Nat) (some_left : 0 < secCnt)
    (present : hd.number < hdCnt) : ∃ ops, ideRead hdCnt hd lba buf secCnt = .ok ops ∧
      ∀ base (c : Channel), c.transfers base ops = if base = portBase hd then chunks hd lba buf secCnt 0 else [] := by
  have checked : decide (0 < secCnt ∧ hd.number < hdCnt) = true := decide_eq_true ⟨some_left, present⟩
  refine ⟨_, by rw [ideRead, checked]; rfl, ?_⟩
  intro base c
  split
  · rename_i here
    rw [here]
    exact transfers_call (fun c addr op ops given => transfers_readFromSector given addr op ops) c
  · rename_i other
    exact transfers_call_elsewhere (by simp [readFromSector, PortOp.dataPort]) other c

theorem ideWrite_ok {hdCnt : Nat} {hd : HD} {secCnt : Nat} (lba buf : Nat) (some_left : 0 < secCnt)
    (present : hd.number < hdCnt) : ∃ ops, ideWrite hdCnt hd lba buf secCnt = .ok ops ∧
      ∀ base (c : Channel), c.transfers base ops = if base = portBase hd then chunks hd lba buf secCnt 0 else [] := by
  have checked : decide (0 < secCnt ∧ hd.number < hdCnt) = true := decide_eq_true ⟨some_left, present⟩
  refine ⟨_, by rw [ideWrite, checked]; rfl, ?_⟩
  intro base c
  split
  · rename_i here
    rw [here]
    exact transfers_call (fun c addr op ops given => transfers_write2sector given addr op ops) c
  · rename_i other
    exact transfers_call_elsewhere (by simp [write2sector, PortOp.dataPort]) other c

def Transfer.pairs (t : Transfer) : List (Nat × Nat) :=
  (List.range (min (512 * t.count) t.size)).map fun b => (512 * t.sector + b, t.addr + b)

def Transfer.sectors (t : Transfer) : List Nat := (List.range t.count).map (t.sector + ·)

def Transfer.bytes (t : Transfer) : List Nat := (List.range t.size).map (t.addr + ·)

/-- The transfers are on the drive `hd` of its channel, of the sectors from `lba` on and of the bytes from `buf` on, each
    once. -/
structure ExactTransfer (hd : HD) (lba buf secCnt : Nat) (done : List Transfer) : Prop where
  drive : ∀ t ∈ done, t.slave = hd.slave
  sectors : (done.flatMap Transfer.sectors).Perm ((List.range secCnt).map (lba + ·))
  paired : ∀ k < secCnt, ∀ b < 512, (512 * (lba + k) + b, buf + (512 * k + b)) ∈ done.flatMap Transfer.pairs
  inside : ∀ addr ∈ done.flatMap Transfer.bytes, buf ≤ addr ∧ addr < buf + 512 * secCnt

theorem chunk_before {lba secCnt secsDone : Nat} (hd : HD) (buf : Nat) (before : secsDone < secCnt)
    (small : lba + secCnt < 2 ^ 28) : ∃ op, op = min 256 (secCnt - secsDone) ∧
      (chunk hd lba buf secCnt secsDone).sector = lba + secsDone ∧
      (chunk hd lba buf secCnt secsDone).count = op ∧ (chunk hd lba buf secCnt secsDone).size = 512 * op := by
  have op : secsOp secCnt secsDone = min 256 (secCnt - secsDone) := by
    unfold secsOp
    split <;> omega
  have some_left : secsOp secCnt secsDone ≠ 0 := by omega
  refine ⟨secsOp secCnt secsDone, op, Nat.mod_eq_of_lt (by omega), ?_, ?_⟩
  · exact if_neg some_left
  · rw [chunk, if_neg some_left]

theorem mem_chunks {hd : HD} {lba buf secCnt : Nat} {t : Transfer} :
    t ∈ chunks hd lba buf secCnt 0 ↔ ∃ turn, 256 * turn ≤ secCnt ∧ t = chunk hd lba buf secCnt (256 * turn) := by
  rw [chunks, List.mem_map]
  constructor
  · intro made
    obtain ⟨secsDone, member, same⟩ := made
    obtain ⟨turn, less, at_turn⟩ := List.mem_range'.mp member
    rw [Nat.zero_add] at at_turn
    refine ⟨turn, ?_, ?_⟩
    · unfold turns at less
      omega
    · rw [← at_turn, same]
  · intro made
    obtain ⟨turn, le, same⟩ := made
    refine ⟨256 * turn, List.mem_range'.mpr ⟨turn, ?_, by omega⟩, same.symm⟩
    unfold turns
    omega

/-- Only the slave of the first channel is addressed as a slave: `select_sector` compares with 1 for both channels. -/
theorem chunk_slave (hd : HD) {lba secsDone : Nat} (buf secCnt : Nat) (small : lba + secsDone < 2 ^ 28) :
    (chunk hd lba buf secCnt secsDone).slave = decide (hd = .ata0s) := by
  apply dev_slave
  rw [Nat.shiftRight_eq_div_pow]
  omega

theorem slave_eq_iff (hd : HD) : decide (hd = .ata0s) = hd.slave ↔ hd ≠ .ata1s := by cases hd <;> decide

theorem chunks_slave {hd : HD} {lba buf secCnt : Nat} {t : Transfer} (small : lba + secCnt < 2 ^ 28)
    (made : t ∈ chunks hd lba buf secCnt 0) : t.slave = decide (hd = .ata0s) := by
  obtain ⟨turn, le, rfl⟩ := mem_chunks.mp made
  exact chunk_slave hd buf secCnt (by omega)

theorem map_range_add (first skip count : Nat) :
    (List.range count).map (first + skip + ·) = (List.range' skip count).map (first + ·) := by
  rw [List.range'_eq_map_range, List.map_map]
  apply List.map_congr_left
  intro k _
  exact Nat.add_assoc first skip k

theorem sectors_chunks (hd : HD) {lba secCnt secsDone : Nat} (buf : Nat) (small : lba + secCnt < 2 ^ 28)
    (odd : (secCnt + 256 - secsDone) % 256 ≠ 0) :
    (chunks hd lba buf secCnt secsDone).flatMap Transfer.sectors =
      (List.range' secsDone (secCnt - secsDone)).map (lba + ·) := by
  induction left : turns secCnt secsDone generalizing secsDone with
  | zero =>
    have done : ¬ secsDone ≤ secCnt := by
      unfold turns at left
      omega
    have none_left : secCnt - secsDone = 0 := by omega
    rw [chunks_done hd lba buf done, none_left]
    rfl
  | succ n ih =>
    have more : secsDone < secCnt := by
      unfold turns at left
      omega
    have next : turns secCnt (secsDone + 256) = n := by
      unfold turns at left ⊢
      omega
    obtain ⟨op, least, sector, count, -⟩ := chunk_before hd buf more small
    rw [chunks_succ hd lba buf (by omega), List.flatMap_cons, Transfer.sectors, sector, count]
    by_cases last : secCnt < secsDone + 256
    · have whole : op = secCnt - secsDone := by omega
      rw [chunks_done hd lba buf (by omega), whole, map_range_add, List.flatMap_nil, List.append_nil]
    · have rest := @ih (secsDone + 256) (by omega) next
      have cut : secCnt - secsDone = op + (secCnt - (secsDone + 256)) := by omega
      have whole : secsDone + 256 = secsDone + op := by omega
      rw [rest, cut, ← List.range'_append_1, List.map_append, whole, map_range_add]

theorem exact_chunks (hd : HD) {lba secCnt : Nat} (buf : Nat) (small : lba + secCnt < 2 ^ 28)
    (addressed : hd ≠ .ata1s) (odd : secCnt % 256 ≠ 0) :
    ExactTransfer hd lba buf secCnt (chunks hd lba buf secCnt 0) := by
  constructor
  · intro t made
    exact (chunks_slave small made).trans ((slave_eq_iff hd).mpr addressed)
  · rw [sectors_chunks hd buf small (by omega), Nat.sub_zero, List.range_eq_range']
  · intro k less b byte
    have before : 256 * (k / 256) < secCnt := by omega
    obtain ⟨op, least, sector, count, size⟩ := chunk_before hd buf before small
    rw [List.mem_flatMap]
    refine ⟨chunk hd lba buf secCnt (256 * (k / 256)), mem_chunks.mpr ⟨k / 256, by omega, rfl⟩, ?_⟩
    have addr : (chunk hd lba buf secCnt (256 * (k / 256))).addr = buf + 256 * (k / 256) * 512 := rfl
    rw [Transfer.pairs, List.mem_map, sector, count, size, addr, Nat.min_self]
    refine ⟨512 * (k % 256) + b, List.mem_range.mpr (by omega), ?_⟩
    rw [Prod.mk.injEq]
    omega
  · intro addr member
    obtain ⟨t, made, byte⟩ := List.mem_flatMap.mp member
    obtain ⟨turn, le, same⟩ := mem_chunks.mp made
    have before : 256 * turn < secCnt := by omega
    obtain ⟨op, least, -, -, size⟩ := chunk_before hd buf before small
    have start : (chunk hd lba buf secCnt (256 * turn)).addr = buf + 256 * turn * 512 := rfl
    rw [same, Transfer.bytes, size, start] at byte
    obtain ⟨b, inside, at_byte⟩ := List.mem_map.mp byte
    have less := List.mem_range.mp inside
    omega

/-- After whole chunks only, one more command with the count 0 is given. -/
theorem extra_chunk (hd : HD) (lba buf : Nat) {secCnt : Nat} (even : secCnt % 256 = 0) :
    chunk hd lba buf secCnt secCnt ∈ chunks hd lba buf secCnt 0 ∧
      (chunk hd lba buf secCnt secCnt).size = 512 * 256 := by
  constructor
  · refine mem_chunks.mpr ⟨secCnt / 256, by omega, ?_⟩
    have whole : 256 * (secCnt / 256) = secCnt := by omega
    rw [whole]
  · have op : secsOp secCnt secCnt = 0 := by
      unfold secsOp
      split <;> omega
    rw [chunk, if_pos op]

theorem not_exact_chunks (hd : HD) (lba buf : Nat) {secCnt : Nat} (even : secCnt % 256 = 0) :
    ¬ ExactTransfer hd lba buf secCnt (chunks hd lba buf secCnt 0) := by
  intro exact_done
  obtain ⟨made, size⟩ := extra_chunk hd lba buf even
  have start : (chunk hd lba buf secCnt secCnt).addr = buf + secCnt * 512 := rfl
  have beyond : buf + secCnt * 512 ∈ (chunk hd lba buf secCnt secCnt).bytes := by
    rw [Transfer.bytes, size, start]
    exact List.mem_map.mpr ⟨0, List.mem_range.mpr (by omega), Nat.add_zero _⟩
  have bound := (exact_done.inside _ (List.mem_flatMap.mpr ⟨_, made, beyond⟩)).2
  omega

theorem exact_iff (hd : HD) (base lba buf : Nat) {secCnt : Nat} (some_left : 0 < secCnt)
    (small : lba + secCnt < 2 ^ 28) :
    ExactTransfer hd lba buf secCnt (if base = portBase hd then chunks hd lba buf secCnt 0 else []) ↔
      base = portBase hd ∧ hd ≠ .ata1s ∧ secCnt % 256 ≠ 0 := by
  by_cases here : base = portBase hd
  · rw [if_pos here]
    constructor
    · intro done
      refine ⟨here, ?_, fun even => not_exact_chunks hd lba buf even done⟩
      have first : chunk hd lba buf secCnt 0 ∈ chunks hd lba buf secCnt 0 := mem_chunks.mpr ⟨0, Nat.zero_le secCnt, rfl⟩
      exact (slave_eq_iff hd).mp ((chunks_slave small first).symm.trans (done.drive _ first))
    · intro conditions
      exact exact_chunks hd buf small conditions.2.1 conditions.2.2
  · rw [if_neg here]
    constructor
    · intro done
      have short := done.sectors.length_eq
      rw [List.length_map, List.length_range] at short
      exact absurd short (Nat.ne_of_lt some_left)
    · exact fun conditions => absurd conditions.1 here

/-- A disk request moves exactly its sectors unless their number is a multiple of 256, the drive is the slave of the
    second channel, or its channel lies at other ports than the driver takes it to. -/
theorem ide_exact (hdCnt : Nat) (hd : HD) (base lba buf secCnt : Nat) (c : Channel) (some_left : 0 < secCnt)
    (present : hd.number < hdCnt) (small : lba + secCnt < 2 ^ 28) :
    ∃ reads writes, ideRead hdCnt hd lba buf secCnt = .ok reads ∧ ideWrite hdCnt hd lba buf secCnt = .ok writes ∧
      ((ExactTransfer hd lba buf secCnt (c.transfers base reads) ∧
        ExactTransfer hd lba buf secCnt (c.transfers base writes)) ↔
          base = 0x1f0 + 0x80 * (hd.number / 2) ∧ hd ≠ .ata1s ∧ secCnt % 256 ≠ 0) := by
  obtain ⟨reads, read, read_chunks⟩ := ideRead_ok lba buf some_left present
  obtain ⟨writes, written, write_chunks⟩ := ideWrite_ok lba buf some_left present
  refine ⟨reads, writes, read, written, ?_⟩
  rw [read_chunks, write_chunks, and_self]
  exact exact_iff hd base lba buf some_left small

/-- 300 sectors of the slave of the first channel: 256 and 44. -/
theorem ide_exact_closed : ∃ reads writes, ideRead 2 .ata0s 8 0 300 = .ok reads ∧
    ideWrite 2 .ata0s 8 0 300 = .ok writes ∧
    ExactTransfer .ata0s 8 0 300 (Channel.transfers 0x1f0 ⟨0, 0, 0, 0, 0, none⟩ reads) ∧
      ExactTransfer .ata0s 8 0 300 (Channel.transfers 0x1f0 ⟨0, 0, 0, 0, 0, none⟩ writes) := by
  obtain ⟨reads, writes, read, written, right⟩ := ide_exact 2 .ata0s 0x1f0 8 0 300 ⟨0, 0, 0, 0, 0, none⟩ (by decide)
    (by decide) (by decide)
  exact ⟨reads, writes, read, written, right.mpr (by decide)⟩

/-- A read of 256 sectors into a buffer of as many goes on to read 256 more behind it. -/
theorem ide_read_beyond : ∃ ops, ideRead 1 .ata0m 0 0 256 = .ok ops ∧
    ¬ ExactTransfer .ata0m 0 0 256 (Channel.transfers 0x1f0 ⟨0, 0, 0, 0, 0, none⟩ ops) := by
  obtain ⟨ops, read, made⟩ := @ideRead_ok 1 .ata0m 256 0 0 (by decide) (by decide)
  have here : 0x1f0 = portBase .ata0m := rfl
  refine ⟨ops, read, ?_⟩
  rw [made, if_pos here]
  exact not_exact_chunks .ata0m 0 0 rfl

end RecoverOs.Device
