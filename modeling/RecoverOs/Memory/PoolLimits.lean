import RecoverOs.Memory.Pool

namespace RecoverOs.Memory.Pool

open Lib Transition

variable {config : Config} {s : Users} {pool : MemPool} {addr pgCnt : Nat}

def kernelMemPool : Config where
  start := 0xffff800000104000
  btmpBytesLen := 252 / 8
  res := 0
  low := by decide
  fits := by decide

/-- An allocation of `pgCnt` pages stays in the bitmap, returns pages of the pool, and fails if there are none. -/
def AllocInside (config : Config) (s : Users) (pgCnt : Nat) : Prop :=
  (∀ idx ∈ bitmapAllocTouches s.pool.poolBitmap pgCnt, idx / 8 < config.btmpBytesLen) ∧
  (∀ addr next, poolAlloc s.pool pgCnt = .ok (addr, next) →
    config.start ≤ addr ∧ addr + pgCnt * pgSize ≤ config.start + 8 * config.btmpBytesLen * pgSize) ∧
  (¬ FreeRun s.pool.poolBitmap pgCnt → ∃ halt, poolAlloc s.pool pgCnt = .error halt)

/-- Before an allocation of several pages there is a run of that length, or the last page is in use. -/
def StopsShort (s : Users) : PoolOp → Prop
  | .alloc pgCnt => StopsInside s.pool.poolBitmap pgCnt
  | .free .. => True

instance (btmp : Bitmap) (cnt : Nat) : Decidable (FreeRun btmp cnt) :=
  decidable_of_iff (∃ start < 8 * btmp.bytesLen + 1, start + cnt ≤ 8 * btmp.bytesLen ∧
      ∀ k < cnt, btmp.bits (start + k) = false) (by
    constructor
    · intro ⟨start, _, run⟩
      exact ⟨start, run⟩
    · intro ⟨start, run⟩
      exact ⟨start, by omega, run⟩)

instance (s : Users) (op : PoolOp) : Decidable (StopsShort s op) :=
  match op with
  | .alloc pgCnt => inferInstanceAs (Decidable (pgCnt = 1 ∨ FreeRun s.pool.poolBitmap pgCnt ∨
      s.pool.poolBitmap.bits (8 * s.pool.poolBitmap.bytesLen - 1) = true))
  | .free .. => .isTrue True.intro

theorem poolAlloc_inside (shape : Shape kernelMemPool pool) (one : 1 ≤ pgCnt) (small : pgCnt < 2 ^ 64)
    (stops : StopsInside pool.poolBitmap pgCnt) {next : MemPool} (ran : poolAlloc pool pgCnt = .ok (addr, next)) :
    idxStart pool addr + pgCnt ≤ pool.pages ∧ kernelMemPool.start ≤ addr ∧
      addr + pgCnt * pgSize ≤ kernelMemPool.start + 8 * kernelMemPool.btmpBytesLen * pgSize ∧
      FreeRun pool.poolBitmap pgCnt := by
  obtain ⟨idx, rfl, bound, clear, first, _⟩ := poolAlloc_cases one small ran
  have inside := stops.run_inside bound clear first
  rw [shape.idxStart_addr bound]
  refine ⟨inside, ?_⟩
  have size : 8 * pool.poolBitmap.bytesLen = 8 * kernelMemPool.btmpBytesLen := by rw [shape.bytesLen]
  rw [shape.start]
  have limits : idx + pgCnt ≤ 248 := by
    rw [size] at inside
    exact inside
  simp only [kernelMemPool, pgSize]
  refine ⟨by omega, by omega, ⟨idx, inside, clear⟩⟩

theorem allocInside_iff (shape : Shape kernelMemPool s.pool) (one : 1 ≤ pgCnt) (small : pgCnt < 2 ^ 64) :
    AllocInside kernelMemPool s pgCnt ↔ StopsInside s.pool.poolBitmap pgCnt := by
  have size : s.pool.poolBitmap.bytesLen = 31 := shape.bytesLen
  have touches := @bitmapAllocTouches_inside s.pool.poolBitmap pgCnt one small (by omega)
  constructor
  · intro ⟨inside, _, _⟩
    apply touches.mp
    intro k member
    have byte : k / 8 < 31 := inside k member
    omega
  · intro stops
    refine ⟨?_, ?_, ?_⟩
    · intro k member
      have bit := touches.mpr stops k member
      show k / 8 < 31
      omega
    · intro addr next ran
      obtain ⟨_, low, high, _⟩ := poolAlloc_inside shape one small stops ran
      exact ⟨low, high⟩
    · intro full
      cases ran : poolAlloc s.pool pgCnt with
      | error halt => exact ⟨halt, rfl⟩
      | ok result => exact absurd (poolAlloc_inside shape one small stops ran).2.2.2 full

structure KernelInv (s : Users) : Prop where
  pool : PoolInv kernelMemPool s
  live : ∀ range ∈ s.live, kernelMemPool.start ≤ range.1 ∧
    range.1 + range.2 * pgSize ≤ kernelMemPool.start + 8 * kernelMemPool.btmpBytesLen * pgSize

theorem kernelInv_step (s : Users) (op : PoolOp) (after : Users) (inv : KernelInv s) (stops : StopsShort s op)
    (ran : s.step op = .ok after) : KernelInv after := by
  cases op with
  | alloc pgCnt =>
    obtain ⟨one, small, addr, next, alloc, rfl⟩ := step_alloc ran
    obtain ⟨within, low, high, _⟩ := poolAlloc_inside inv.pool.shape one small stops alloc
    refine ⟨poolInv_step s _ _ inv.pool ?_ ran, ?_⟩
    · intro addr' next' again
      rw [alloc] at again
      cases again
      exact within
    · intro range member
      rcases List.mem_cons.mp member with rfl | old
      · exact ⟨low, high⟩
      · exact inv.live range old
  | free addr pgCnt =>
    refine ⟨poolInv_step s (.free addr pgCnt) after inv.pool True.intro ran, ?_⟩
    obtain ⟨_, next, _, rfl⟩ := step_free ran
    exact fun range member => inv.live range (List.mem_of_mem_erase member)

/-- Allocations that stop inside return pages of the pool, and no others stay in the bitmap. -/
theorem kernel_ranges_inside (bits : Nat → Bool) (ops : List PoolOp) (s : Users)
    (stops : Meets Users.step StopsShort (Users.start kernelMemPool bits) ops)
    (ran : run Users.step (Users.start kernelMemPool bits) ops = .ok s) :
    (∀ range ∈ s.live, kernelMemPool.start ≤ range.1 ∧
      range.1 + range.2 * pgSize ≤ kernelMemPool.start + 8 * kernelMemPool.btmpBytesLen * pgSize) ∧
    ∀ pgCnt, 1 ≤ pgCnt → pgCnt < 2 ^ 64 →
      (AllocInside kernelMemPool s pgCnt ↔ StopsInside s.pool.poolBitmap pgCnt) := by
  have start : KernelInv (Users.start kernelMemPool bits) := by
    refine ⟨poolInv_start kernelMemPool bits, ?_⟩
    intro range member
    cases member
  have inv := run_invariant kernelInv_step start stops ran
  exact ⟨inv.live, fun pgCnt one small => allocInside_iff inv.pool.shape one small⟩

def bootAllocs : List PoolOp := [.alloc 63, .alloc 1, .alloc 12, .free 0xffff800000143000 1]

theorem kernel_ranges_inside_boot : ∃ s, run Users.step (Users.start kernelMemPool fun _ => false) bootAllocs = .ok s ∧
    s.live = [(0xffff800000144000, 12), (0xffff800000104000, 63)] ∧ AllocInside kernelMemPool s 2 := by
  have evaluated : endsIn (run Users.step (Users.start kernelMemPool fun _ => false) bootAllocs) (fun s =>
      decide (s.live = [(0xffff800000144000, 12), (0xffff800000104000, 63)] ∧ FreeRun s.pool.poolBitmap 2)) = true := by
    decide +kernel
  have stops : meetsCheck Users.step StopsShort (Users.start kernelMemPool fun _ => false) bootAllocs = true := by
    decide +kernel
  obtain ⟨s, ran, check⟩ := exists_of_endsIn evaluated
  obtain ⟨live, room⟩ := of_decide_eq_true check
  refine ⟨s, ran, live, ?_⟩
  apply ((kernel_ranges_inside _ bootAllocs s (meets_of_check stops) ran).2 2 (by decide) (by decide)).mpr
  exact .inr (.inl room)

/-- With all pages but the last in use, a request for two pages takes the last one and one behind the pool. -/
theorem kernel_range_leaves_pool : ∃ s next,
    run Users.step (Users.start kernelMemPool fun _ => false) [.alloc 247] = .ok s ∧
    poolAlloc s.pool 2 = .ok (0xffff8000001fb000, next) ∧ ¬ AllocInside kernelMemPool s 2 := by
  have evaluated : endsIn (run Users.step (Users.start kernelMemPool fun _ => false) [.alloc 247]) (fun s =>
      endsIn (poolAlloc s.pool 2) fun result => decide (result.1 = 0xffff8000001fb000)) = true := by
    decide +kernel
  obtain ⟨s, ran, rest⟩ := exists_of_endsIn evaluated
  obtain ⟨⟨addr, next⟩, alloc, check⟩ := exists_of_endsIn rest
  have same : addr = 0xffff8000001fb000 := of_decide_eq_true check
  rw [same] at alloc
  refine ⟨s, next, ran, alloc, ?_⟩
  intro ⟨_, inside, _⟩
  have wrong := (inside _ next alloc).2
  simp only [kernelMemPool, pgSize] at wrong
  omega

def memBytesTotal : Nat := 0x8000000

/-- `phy_mem_pool`; `mem_bytes_total >> 12 / 8` shifts by one. -/
def phyMemPool : Config where
  start := 0
  btmpBytesLen := memBytesTotal / 2 ^ (12 / 8)
  res := 0x200000 / 2 ^ 12
  low := by decide
  fits := by decide

def FreeBelow (s : Users) : Prop :=
  ∃ page, phyMemPool.res ≤ page ∧ page < memBytesTotal / pgSize ∧ s.pool.poolBitmap.bits page = false

def TakesExisting (s : Users) : PoolOp → Prop
  | .alloc pgCnt => pgCnt = 1 ∧ FreeBelow s
  | .free .. => True

/-- A page that is returned exists, and if all of them are in use none is returned. -/
def AllocExists (s : Users) : Prop :=
  (∀ addr next, poolAlloc s.pool 1 = .ok (addr, next) → 0x200000 ≤ addr ∧ addr < memBytesTotal) ∧
  ((∀ page, phyMemPool.res ≤ page → page < memBytesTotal / pgSize → ∃ range ∈ s.live, Covers s.pool range page) →
    ∃ halt, poolAlloc s.pool 1 = .error halt)

structure PhysInv (s : Users) : Prop where
  pool : PoolInv phyMemPool s
  single : ∀ range ∈ s.live, range.2 = 1
  low : ∀ range ∈ s.live, 0x200000 ≤ range.1 ∧ range.1 < memBytesTotal
  number : ∀ range ∈ s.live, idxStart s.pool range.1 < memBytesTotal / pgSize

theorem poolAlloc_first (shape : Shape phyMemPool pool) {page : Nat} (inside : page < pool.pages)
    (free : pool.poolBitmap.bits page = false) : ∃ idx next,
      poolAlloc pool 1 = .ok (idx * pgSize, next) ∧ idx ≤ page ∧ pool.poolBitmap.bits idx = false ∧
      (∀ i < idx, pool.poolBitmap.bits i = true) ∧ next = { pool with poolBitmap := setRun pool.poolBitmap idx 1 } := by
  cases ran : poolAlloc pool 1 with
  | error halt =>
    have full : bitmapAlloc pool.poolBitmap 1 = none := by
      unfold poolAlloc at ran
      split at ran
      · cases ran
      · assumption
    obtain ⟨k, less, set⟩ := bitmapAlloc_none (by decide) (by decide) full page inside
    have zero : k = 0 := by omega
    rw [zero, Nat.add_zero, free] at set
    cases set
  | ok result =>
    obtain ⟨addr, next⟩ := result
    obtain ⟨idx, rfl, bound, clear, first, rfl⟩ := poolAlloc_cases (by decide) (by decide) ran
    have all : ∀ i < idx, pool.poolBitmap.bits i = true := by
      intro i less
      obtain ⟨k, small, set⟩ := first i less
      have zero : k = 0 := by omega
      rw [zero, Nat.add_zero] at set
      exact set
    have address : (pool.start + idx * pgSize) % 2 ^ 64 = idx * pgSize := by
      have size : pool.poolBitmap.bytesLen = 0x4000000 := shape.bytesLen
      have start : pool.start = 0 := shape.start
      simp only [MemPool.pages, size] at bound
      simp only [start, pgSize]
      omega
    rw [address]
    refine ⟨idx, _, rfl, ?_, clear 0 (by decide), all, rfl⟩
    by_contra beyond
    rw [all page (by omega)] at free
    cases free

theorem idxStart_zero (shape : Shape phyMemPool pool) {idx : Nat} (inside : idx < pool.pages) :
    idxStart pool (idx * pgSize) = idx := by
  have start : pool.start = 0 := shape.start
  have size : pool.poolBitmap.bytesLen = 0x4000000 := shape.bytesLen
  simp only [MemPool.pages, size] at inside
  simp only [idxStart, start, pgSize]
  omega

theorem Shape.existing (shape : Shape phyMemPool pool) {page : Nat} (exists' : page < memBytesTotal / pgSize) :
    page < pool.pages := by
  have size : pool.poolBitmap.bytesLen = 0x4000000 := shape.bytesLen
  simp only [MemPool.pages, size]
  simp only [memBytesTotal, pgSize] at exists'
  omega

/-- While a page that exists is free, one that exists is returned. -/
theorem PhysInv.alloc_low {next : MemPool} (inv : PhysInv s) (free : FreeBelow s)
    (ran : poolAlloc s.pool 1 = .ok (addr, next)) :
    0x200000 ≤ addr ∧ addr < memBytesTotal ∧ idxStart s.pool addr < memBytesTotal / pgSize := by
  obtain ⟨page, _, below, clear⟩ := free
  obtain ⟨idx, next', taken, upTo, unset, _, _⟩ := poolAlloc_first inv.pool.shape (inv.pool.shape.existing below) clear
  rw [taken] at ran
  cases ran
  have high : 512 ≤ idx := by
    by_contra low
    have bound := inv.pool.shape.existing (Nat.lt_of_le_of_lt upTo below)
    rw [(inv.pool.exact.bits idx bound).mpr (.inl (Nat.lt_of_not_le low))] at unset
    cases unset
  rw [idxStart_zero inv.pool.shape (inv.pool.shape.existing (Nat.lt_of_le_of_lt upTo below))]
  simp only [memBytesTotal, pgSize] at below ⊢
  omega

theorem physInv_step (s : Users) (op : PoolOp) (after : Users) (inv : PhysInv s) (takes : TakesExisting s op)
    (ran : s.step op = .ok after) : PhysInv after := by
  cases op with
  | alloc pgCnt =>
    obtain ⟨rfl, free⟩ := takes
    obtain ⟨_, _, addr, next, alloc, rfl⟩ := step_alloc ran
    obtain ⟨low, high, number⟩ := inv.alloc_low free alloc
    have within : Within s (.alloc 1) := by
      intro addr' next' again
      rw [alloc] at again
      cases again
      exact inv.pool.shape.existing number
    have next' := poolInv_step s (.alloc 1) _ inv.pool within ran
    have start : next.start = s.pool.start := next'.shape.start.trans inv.pool.shape.start.symm
    refine ⟨next', ?_, ?_, ?_⟩
    · intro range member
      rcases List.mem_cons.mp member with rfl | old
      · rfl
      · exact inv.single range old
    · intro range member
      rcases List.mem_cons.mp member with rfl | old
      · exact ⟨low, high⟩
      · exact inv.low range old
    · intro range member
      show idxStart next range.1 < _
      rw [idxStart_congr start]
      rcases List.mem_cons.mp member with rfl | old
      · exact number
      · exact inv.number range old
  | free addr pgCnt =>
    have next' := poolInv_step s (.free addr pgCnt) after inv.pool True.intro ran
    obtain ⟨_, next, _, rfl⟩ := step_free ran
    have start : next.start = s.pool.start := next'.shape.start.trans inv.pool.shape.start.symm
    refine ⟨next', ?_, ?_, ?_⟩
    · exact fun range member => inv.single range (List.mem_of_mem_erase member)
    · exact fun range member => inv.low range (List.mem_of_mem_erase member)
    · intro range member
      show idxStart next range.1 < _
      rw [idxStart_congr start]
      exact inv.number range (List.mem_of_mem_erase member)

/-- Without a free page that exists, the first page behind the memory is returned. -/
theorem PhysInv.alloc_iff (inv : PhysInv s) : AllocExists s ↔ FreeBelow s := by
  have shape := inv.pool.shape
  constructor
  · intro ⟨inside, _⟩
    by_contra none
    have behind : memBytesTotal / pgSize < s.pool.pages := by
      have size : s.pool.poolBitmap.bytesLen = 0x4000000 := shape.bytesLen
      simp only [MemPool.pages, size, memBytesTotal, pgSize]
      omega
    have clear : s.pool.poolBitmap.bits (memBytesTotal / pgSize) = false := by
      rw [← Bool.not_eq_true, inv.pool.exact.bits _ behind]
      intro either
      rcases either with reserved | ⟨range, member, covers⟩
      · simp only [memBytesTotal, phyMemPool, pgSize] at reserved
        omega
      · have number := inv.number range member
        have high := covers.2
        rw [inv.single range member] at high
        omega
    obtain ⟨idx, next, taken, _, unset, first, _⟩ := poolAlloc_first shape behind clear
    have low := inside _ next taken
    apply none
    refine ⟨idx, ?_, ?_, unset⟩
    · have bound := low.1
      simp only [phyMemPool, pgSize] at bound ⊢
      omega
    · have bound := low.2
      simp only [memBytesTotal, pgSize] at bound ⊢
      omega
  · intro free
    refine ⟨?_, ?_⟩
    · intro addr next ran
      obtain ⟨low, high, _⟩ := inv.alloc_low free ran
      exact ⟨low, high⟩
    · intro all
      obtain ⟨page, low, below, clear⟩ := free
      obtain ⟨range, member, covers⟩ := all page low below
      rw [(inv.pool.exact.bits page (shape.existing below)).mpr (.inr ⟨range, member, covers⟩)] at clear
      cases clear

theorem physInv_start (bits : Nat → Bool) : PhysInv (Users.start phyMemPool bits) := by
  refine ⟨poolInv_start phyMemPool bits, ?_, ?_, ?_⟩
  all_goals
    intro range member
    cases member

/-- Pages that are taken while there is one exist, and none is taken otherwise. -/
theorem pages_exist (bits : Nat → Bool) (ops : List PoolOp) (s : Users)
    (takes : Meets Users.step TakesExisting (Users.start phyMemPool bits) ops)
    (ran : run Users.step (Users.start phyMemPool bits) ops = .ok s) :
    (∀ range ∈ s.live, 0x200000 ≤ range.1 ∧ range.1 < memBytesTotal) ∧ (AllocExists s ↔ FreeBelow s) := by
  have inv := run_invariant physInv_step (physInv_start bits) takes ran
  exact ⟨inv.low, inv.alloc_iff⟩

theorem take_pages (bits : Nat → Bool) (cnt : Nat) (room : 512 + cnt ≤ 8 * phyMemPool.btmpBytesLen) : ∃ s,
    run Users.step (Users.start phyMemPool bits) (List.replicate cnt (.alloc 1)) = .ok s ∧ Shape phyMemPool s.pool ∧
    ∀ i < s.pool.pages, s.pool.poolBitmap.bits i = true ↔ i < 512 + cnt := by
  induction cnt with
  | zero =>
    have inv := poolInv_start phyMemPool bits
    refine ⟨Users.start phyMemPool bits, rfl, inv.shape, ?_⟩
    intro i inside
    rw [inv.exact.bits i inside]
    have empty : (Users.start phyMemPool bits).live = [] := rfl
    rw [empty]
    simp [phyMemPool]
  | succ cnt ih =>
    obtain ⟨s, ran, shape, marked⟩ := ih (by omega)
    have pages : s.pool.pages = 8 * phyMemPool.btmpBytesLen := by rw [MemPool.pages, shape.bytesLen]
    have inside : 512 + cnt < s.pool.pages := by omega
    have clear : s.pool.poolBitmap.bits (512 + cnt) = false := by
      rw [← Bool.not_eq_true, marked _ inside]
      omega
    obtain ⟨idx, next, taken, upTo, unset, _, rfl⟩ := poolAlloc_first shape inside clear
    have exactly : idx = 512 + cnt := by
      by_contra other
      rw [(marked idx (by omega)).mpr (by omega)] at unset
      cases unset
    refine ⟨⟨{ s.pool with poolBitmap := setRun s.pool.poolBitmap idx 1 }, (idx * pgSize, 1) :: s.live⟩, ?_, ?_, ?_⟩
    · rw [List.replicate_succ', run_append]
      refine ⟨s, ran, ?_⟩
      simp only [run, Users.step, bind_ok, offer_ok, pure_ok, Prod.exists, taken]
      exact ⟨_, ⟨(), by decide, _, _, rfl, rfl⟩, rfl⟩
    · exact ⟨shape.start, (setRun_bytesLen ..).trans shape.bytesLen⟩
    · intro i bound
      have bound' : i < s.pool.pages := by
        rw [MemPool.pages, setRun_bytesLen] at bound
        exact bound
      show (setRun s.pool.poolBitmap idx 1).bits i = true ↔ _
      rw [setRun_bits, exactly]
      by_cases here : 512 + cnt ≤ i ∧ i < 512 + cnt + 1
      · rw [if_pos here]
        exact iff_of_true rfl (by omega)
      · rw [if_neg here, marked i bound']
        omega

/-- The first two pages are taken. -/
theorem pages_exist_two : ∃ s, run Users.step (Users.start phyMemPool fun _ => false) [.alloc 1, .alloc 1] = .ok s ∧
    s.live.length = 2 ∧ (∀ range ∈ s.live, 0x200000 ≤ range.1 ∧ range.1 < memBytesTotal) ∧ AllocExists s := by
  have free : ∀ cnt < 3, ∀ s : Users, Shape phyMemPool s.pool →
      (∀ i < s.pool.pages, s.pool.poolBitmap.bits i = true ↔ i < 512 + cnt) → FreeBelow s := by
    intro cnt few s shape marked
    have below : 512 + cnt < memBytesTotal / pgSize := by
      simp only [memBytesTotal, pgSize]
      omega
    refine ⟨512 + cnt, Nat.le_add_right .., below, ?_⟩
    rw [← Bool.not_eq_true, marked _ (shape.existing below)]
    omega
  obtain ⟨start, none, shape0, marked0⟩ := take_pages (fun _ => false) 0 (by decide)
  obtain ⟨first, one, shape1, marked1⟩ := take_pages (fun _ => false) 1 (by decide)
  obtain ⟨s, two, shape2, marked2⟩ := take_pages (fun _ => false) 2 (by decide)
  cases none
  have step : (Users.start phyMemPool fun _ => false).step (.alloc 1) = .ok first := by
    obtain ⟨next, taken, rest⟩ := run_cons.mp one
    cases rest
    exact taken
  have takes : Meets Users.step TakesExisting (Users.start phyMemPool fun _ => false) [.alloc 1, .alloc 1] := by
    refine ⟨⟨rfl, free 0 (by decide) _ shape0 marked0⟩, ?_⟩
    intro next taken
    rw [step] at taken
    cases taken
    exact ⟨⟨rfl, free 1 (by decide) _ shape1 marked1⟩, fun _ _ => True.intro⟩
  have length : s.live.length = 2 := by
    obtain ⟨middle, taken, rest⟩ := run_cons.mp two
    obtain ⟨last, again, rest⟩ := run_cons.mp rest
    cases rest
    obtain ⟨_, _, addr, next, _, rfl⟩ := step_alloc taken
    obtain ⟨_, _, addr', next', _, rfl⟩ := step_alloc again
    rfl
  obtain ⟨low, exists'⟩ := pages_exist _ _ s takes two
  exact ⟨s, two, length, low, exists'.mpr (free 2 (by decide) s shape2 marked2)⟩

/-- After all pages that exist have been taken, the next address is the one behind the memory. -/
theorem page_behind_memory : ∃ s next,
    run Users.step (Users.start phyMemPool fun _ => false) (List.replicate 32256 (.alloc 1)) = .ok s ∧
    poolAlloc s.pool 1 = .ok (0x8000000, next) ∧ ¬ AllocExists s := by
  obtain ⟨s, ran, shape, marked⟩ := take_pages (fun _ => false) 32256 (by decide)
  have pages : s.pool.pages = 8 * phyMemPool.btmpBytesLen := by rw [MemPool.pages, shape.bytesLen]
  have inside : 32768 < s.pool.pages := by
    rw [pages]
    decide
  have clear : s.pool.poolBitmap.bits 32768 = false := by
    rw [← Bool.not_eq_true, marked _ inside]
    omega
  obtain ⟨idx, next, taken, upTo, unset, _, _⟩ := poolAlloc_first shape inside clear
  have exactly : idx = 32768 := by
    by_contra other
    rw [(marked idx (by omega)).mpr (by omega)] at unset
    cases unset
  rw [exactly] at taken
  refine ⟨s, next, ran, taken, ?_⟩
  intro exist
  have wrong := (exist.1 _ next taken).2
  simp only [memBytesTotal, pgSize] at wrong
  omega

end RecoverOs.Memory.Pool
