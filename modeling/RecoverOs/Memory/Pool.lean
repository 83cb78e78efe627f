import RecoverOs.Basic
import RecoverOs.Lib.Bitmap

namespace RecoverOs.Memory.Pool

open Lib Transition

structure MemPool where
  start : Nat
  poolBitmap : Bitmap

/-- The arguments of `mem_pool_init`; the pages of a pool lie in the address space. -/
structure Config where
  start : Nat
  btmpBytesLen : Nat
  res : Nat
  low : start < 2 ^ 64
  fits : 8 * btmpBytesLen * pgSize ≤ 2 ^ 64

/-- `bits` is the memory from the bitmap on. -/
def memPoolInit (config : Config) (bits : Nat → Bool) : MemPool where
  start := config.start
  poolBitmap := setRun (bitmapInit ⟨config.btmpBytesLen, bits⟩) 0 config.res

def poolAlloc (pool : MemPool) (pgCnt : Nat) : Except Halt (Nat × MemPool) :=
  match bitmapAlloc pool.poolBitmap pgCnt with
  | some (idx, btmp) => .ok ((pool.start + idx * pgSize) % 2 ^ 64, { pool with poolBitmap := btmp })
  | none => .error .panic

def idxStart (pool : MemPool) (addr : Nat) : Nat := (addr + 2 ^ 64 - pool.start) % 2 ^ 64 / pgSize

def freeRun (btmp : Bitmap) (idx : Nat) : Nat → Except Halt Bitmap
  | 0 => .ok btmp
  | cnt + 1 => do
    let btmp ← freeRun btmp idx cnt
    assert (bitmapRead btmp (idx + cnt))
    return bitmapSet btmp (idx + cnt) false

def poolFree (pool : MemPool) (addr pgCnt : Nat) : Except Halt MemPool := do
  let btmp ← freeRun pool.poolBitmap (idxStart pool addr) pgCnt
  return { pool with poolBitmap := btmp }

/-- A pool and the ranges that have been handed out and not been given back, with their lengths. -/
structure Users where
  pool : MemPool
  live : List (Nat × Nat)

/-- `pool_alloc` of at least one page, and `pool_free` of a range that `pool_alloc` has returned. -/
inductive PoolOp where
  | alloc (pgCnt : Nat)
  | free (addr pgCnt : Nat)
  deriving DecidableEq, Repr

def Users.step (s : Users) : PoolOp → Except Halt Users
  | .alloc pgCnt => do
    offer (decide (1 ≤ pgCnt ∧ pgCnt < 2 ^ 64))
    let (addr, pool) ← poolAlloc s.pool pgCnt
    return { pool := pool, live := (addr, pgCnt) :: s.live }
  | .free addr pgCnt => do
    offer (s.live.contains (addr, pgCnt))
    let pool ← poolFree s.pool addr pgCnt
    return { pool := pool, live := s.live.erase (addr, pgCnt) }

def Users.start (config : Config) (bits : Nat → Bool) : Users := ⟨memPoolInit config bits, []⟩

variable {config : Config} {s after : Users} {pool next : MemPool} {addr pgCnt : Nat}

def MemPool.pages (pool : MemPool) : Nat := 8 * pool.poolBitmap.bytesLen

def Covers (pool : MemPool) (range : Nat × Nat) (i : Nat) : Prop :=
  idxStart pool range.1 ≤ i ∧ i < idxStart pool range.1 + range.2

instance (pool : MemPool) (range : Nat × Nat) (i : Nat) : Decidable (Covers pool range i) :=
  inferInstanceAs (Decidable (idxStart pool range.1 ≤ i ∧ i < idxStart pool range.1 + range.2))

def Apart (pool : MemPool) (range other : Nat × Nat) : Prop := ∀ i, ¬ (Covers pool range i ∧ Covers pool other i)

/-- The bits are exactly the reserved pages and the ranges in use, which do not overlap. -/
structure Exact (config : Config) (s : Users) : Prop where
  bits : ∀ i < s.pool.pages, s.pool.poolBitmap.bits i = true ↔ i < config.res ∨ ∃ range ∈ s.live, Covers s.pool range i
  apart : s.live.Pairwise (Apart s.pool)
  inside : ∀ range ∈ s.live, 1 ≤ range.2 ∧ idxStart s.pool range.1 + range.2 ≤ s.pool.pages
  unreserved : ∀ range ∈ s.live, ∀ i, Covers s.pool range i → config.res ≤ i

structure Shape (config : Config) (pool : MemPool) : Prop where
  start : pool.start = config.start
  bytesLen : pool.poolBitmap.bytesLen = config.btmpBytesLen

theorem poolAlloc_cases (one : 1 ≤ pgCnt) (small : pgCnt < 2 ^ 64) (ran : poolAlloc pool pgCnt = .ok (addr, next)) :
    ∃ idx, addr = (pool.start + idx * pgSize) % 2 ^ 64 ∧ idx < pool.pages ∧
      (∀ k < pgCnt, pool.poolBitmap.bits (idx + k) = false) ∧ (∀ i < idx, Blocked pool.poolBitmap pgCnt i) ∧
      next = { pool with poolBitmap := setRun pool.poolBitmap idx pgCnt } := by
  unfold poolAlloc at ran
  split at ran
  · rename_i idx btmp found
    cases ran
    obtain ⟨inside, clear, first, rfl⟩ := bitmapAlloc_some one small found
    exact ⟨idx, rfl, inside, clear, first, rfl⟩
  · cases ran

theorem Shape.idxStart_addr {idx : Nat} (shape : Shape config pool) (inside : idx < pool.pages) :
    idxStart pool ((pool.start + idx * pgSize) % 2 ^ 64) = idx := by
  have low := config.low
  have fits := config.fits
  rw [← shape.start] at low
  rw [← shape.bytesLen] at fits
  simp only [MemPool.pages] at inside
  simp only [idxStart, pgSize] at fits ⊢
  omega

theorem freeRun_ok {btmp : Bitmap} {idx cnt : Nat} (marked : ∀ k < cnt, btmp.bits (idx + k) = true) :
    ∃ freed, freeRun btmp idx cnt = .ok freed ∧ freed.bytesLen = btmp.bytesLen ∧
      ∀ i, freed.bits i = if idx ≤ i ∧ i < idx + cnt then false else btmp.bits i := by
  induction cnt with
  | zero =>
    refine ⟨btmp, rfl, rfl, ?_⟩
    intro i
    rw [if_neg]
    omega
  | succ cnt ih =>
    obtain ⟨freed, ran, size, bits⟩ := ih fun k less => marked k (Nat.lt_succ_of_lt less)
    have last : freed.bits (idx + cnt) = true := by
      rw [bits, if_neg (by omega)]
      exact marked cnt (Nat.lt_succ_self cnt)
    refine ⟨bitmapSet freed (idx + cnt) false, ?_, size, ?_⟩
    · simp only [freeRun, ran, bind_ok, Except.ok.injEq, exists_eq_left', bitmapRead, last, assert_ok, pure_ok, exists_const,
        and_self]
    · intro i
      rw [bitmapSet_bits, bits]
      by_cases here : i = idx + cnt
      · rw [if_pos here, if_pos]
        omega
      · rw [if_neg here]
        by_cases inside : idx ≤ i ∧ i < idx + cnt
        · rw [if_pos inside, if_pos]
          omega
        · rw [if_neg inside, if_neg]
          omega

theorem poolFree_ok (marked : ∀ k < pgCnt, pool.poolBitmap.bits (idxStart pool addr + k) = true) :
    ∃ next, poolFree pool addr pgCnt = .ok next ∧ next.start = pool.start ∧
      next.poolBitmap.bytesLen = pool.poolBitmap.bytesLen ∧ ∀ i, next.poolBitmap.bits i =
        if Covers pool (addr, pgCnt) i then false else pool.poolBitmap.bits i := by
  obtain ⟨freed, ran, size, bits⟩ := freeRun_ok marked
  refine ⟨{ pool with poolBitmap := freed }, ?_, rfl, size, bits⟩
  simp only [poolFree, ran, bind_ok, Except.ok.injEq, exists_eq_left', pure_ok]

theorem poolAlloc_zero (pool : MemPool) : poolAlloc pool 0 = .error .panic := by
  rw [poolAlloc, bitmapAlloc_zero]

theorem poolAlloc_returns {run : Nat} (shape : Shape config pool) (free : FreeRun pool.poolBitmap run) (one : 1 ≤ pgCnt)
    (small : pgCnt < 2 ^ 64) (fits : pgCnt ≤ run) : ∃ addr next, poolAlloc pool pgCnt = .ok (addr, next) ∧
      poolFree next addr pgCnt = .ok pool ∧ Shape config next ∧ (pgCnt < run → FreeRun next.poolBitmap 1) := by
  obtain ⟨first, inside, clear⟩ := free
  cases ran : poolAlloc pool pgCnt with
  | error halt =>
    have full : bitmapAlloc pool.poolBitmap pgCnt = none := by
      unfold poolAlloc at ran
      split at ran
      · cases ran
      · assumption
    obtain ⟨k, less, set⟩ := bitmapAlloc_none one small full first (by omega)
    rw [clear k (by omega)] at set
    cases set
  | ok result =>
    obtain ⟨addr, next⟩ := result
    obtain ⟨idx, rfl, bound, unset, earliest, rfl⟩ := poolAlloc_cases one small ran
    have number := shape.idxStart_addr bound
    refine ⟨_, _, rfl, ?_, ⟨shape.start, (setRun_bytesLen ..).trans shape.bytesLen⟩, ?_⟩
    · obtain ⟨freed, back, size, bits⟩ := @freeRun_ok (setRun pool.poolBitmap idx pgCnt) idx pgCnt (by
        intro k less
        rw [setRun_bits, if_pos (by omega)])
      have same : freed = pool.poolBitmap := by
        have bytes : freed.bytesLen = pool.poolBitmap.bytesLen := size.trans (setRun_bytesLen ..)
        have all : freed.bits = pool.poolBitmap.bits := by
          funext i
          rw [bits, setRun_bits]
          by_cases here : idx ≤ i ∧ i < idx + pgCnt
          · have before := unset (i - idx) (by omega)
            rw [Nat.add_sub_cancel' here.1] at before
            rw [if_pos here, before]
          · rw [if_neg here, if_neg here]
        cases freed
        simp only at bytes all
        rw [bytes, all]
      have index : idxStart { pool with poolBitmap := setRun pool.poolBitmap idx pgCnt }
          ((pool.start + idx * pgSize) % 2 ^ 64) = idx := number
      simp only [poolFree, index, back, bind_ok, Except.ok.injEq, exists_eq_left', pure_ok, same]
    · -- The allocation is too short to fill the whole run.
      intro shorter
      have apart : ∃ page, first ≤ page ∧ page < first + run ∧ ¬ (idx ≤ page ∧ page < idx + pgCnt) := by
        by_cases covered : idx ≤ first ∧ first < idx + pgCnt
        · exact ⟨idx + pgCnt, by omega, by omega, by omega⟩
        · exact ⟨first, Nat.le_refl _, by omega, covered⟩
      obtain ⟨page, low, high, outside⟩ := apart
      refine ⟨page, ?_, ?_⟩
      · rw [setRun_bytesLen]
        omega
      · intro k less
        have zero : k = 0 := by omega
        have before := clear (page - first) (by omega)
        rw [Nat.add_sub_cancel' low] at before
        rw [zero, Nat.add_zero, setRun_bits, if_neg outside, before]

theorem Exact.free_ok (exact : Exact config s) (member : (addr, pgCnt) ∈ s.live) :
    ∃ next, poolFree s.pool addr pgCnt = .ok next ∧ next.start = s.pool.start ∧
      next.poolBitmap.bytesLen = s.pool.poolBitmap.bytesLen ∧ ∀ i, next.poolBitmap.bits i =
        if Covers s.pool (addr, pgCnt) i then false else s.pool.poolBitmap.bits i := by
  apply poolFree_ok
  intro k less
  have inside := (exact.inside _ member).2
  apply (exact.bits _ (by dsimp only at inside; omega)).mpr
  exact .inr ⟨(addr, pgCnt), member, Nat.le_add_right _ _, Nat.add_lt_add_left less _⟩

theorem covers_congr (start : next.start = pool.start) (range : Nat × Nat) (i : Nat) :
    Covers next range i ↔ Covers pool range i := by
  rw [Covers, Covers, idxStart, idxStart, start]

theorem idxStart_congr (start : next.start = pool.start) (addr : Nat) : idxStart next addr = idxStart pool addr := by
  rw [idxStart, idxStart, start]

theorem Exact.rebits {live : List (Nat × Nat)} (exact : Exact config s) (sub : live.Sublist s.live)
    (start : next.start = s.pool.start) (size : next.poolBitmap.bytesLen = s.pool.poolBitmap.bytesLen)
    (bits : ∀ i < s.pool.pages, next.poolBitmap.bits i = true ↔
      i < config.res ∨ ∃ range ∈ live, Covers s.pool range i) : Exact config ⟨next, live⟩ := by
  have pages : next.pages = s.pool.pages := by rw [MemPool.pages, size, MemPool.pages]
  constructor
  case bits =>
    intro i less
    rw [bits i (pages ▸ less)]
    simp only [covers_congr start]
  case apart =>
    apply (exact.apart.sublist sub).imp
    intro range other apart i both
    rw [covers_congr start, covers_congr start] at both
    exact apart i both
  case inside =>
    intro range member
    show 1 ≤ range.2 ∧ idxStart next range.1 + range.2 ≤ next.pages
    rw [pages, idxStart_congr start]
    exact exact.inside range (sub.subset member)
  case unreserved =>
    intro range member i covers
    rw [covers_congr start] at covers
    exact exact.unreserved range (sub.subset member) i covers

theorem Exact.free (exact : Exact config s) (member : (addr, pgCnt) ∈ s.live)
    (ran : poolFree s.pool addr pgCnt = .ok next) :
    Exact config ⟨next, s.live.erase (addr, pgCnt)⟩ ∧ next.start = s.pool.start ∧
      next.poolBitmap.bytesLen = s.pool.poolBitmap.bytesLen := by
  obtain ⟨freed, same, start, size, bits⟩ := exact.free_ok member
  rw [same] at ran
  cases ran
  refine ⟨?_, start, size⟩
  apply exact.rebits List.erase_sublist start size
  intro i less
  rw [bits]
  -- No other range in use covers a page of the one that is given back.
  have others : ∀ range ∈ s.live.erase (addr, pgCnt), ∀ i, Covers s.pool range i → ¬ Covers s.pool (addr, pgCnt) i := by
    have split := List.perm_cons_erase member
    have apart := (split.pairwise_iff fun clash i both => clash i both.symm).mp exact.apart
    intro range among i covers here
    exact (List.pairwise_cons.mp apart).1 range among i ⟨here, covers⟩
  by_cases here : Covers s.pool (addr, pgCnt) i
  · rw [if_pos here]
    constructor
    · intro wrong
      cases wrong
    · intro either
      rcases either with reserved | ⟨range, among, covers⟩
      · have free := exact.unreserved _ member i here
        omega
      · exact absurd here (others range among i covers)
  · rw [if_neg here, exact.bits i less]
    apply or_congr Iff.rfl
    constructor
    · intro ⟨range, among, covers⟩
      refine ⟨range, ?_, covers⟩
      apply (List.mem_erase_of_ne _).mpr among
      intro same
      rw [same] at covers
      exact here covers
    · intro ⟨range, among, covers⟩
      exact ⟨range, List.mem_of_mem_erase among, covers⟩

theorem Exact.alloc (exact : Exact config s) (shape : Shape config s.pool) (one : 1 ≤ pgCnt) (small : pgCnt < 2 ^ 64)
    (ran : poolAlloc s.pool pgCnt = .ok (addr, next)) (within : idxStart s.pool addr + pgCnt ≤ s.pool.pages) :
    Exact config ⟨next, (addr, pgCnt) :: s.live⟩ ∧ next.start = s.pool.start ∧
      next.poolBitmap.bytesLen = s.pool.poolBitmap.bytesLen := by
  obtain ⟨idx, rfl, inside, clear, _, rfl⟩ := poolAlloc_cases one small ran
  have number := shape.idxStart_addr inside
  have fresh : ∀ i, Covers s.pool ((s.pool.start + idx * pgSize) % 2 ^ 64, pgCnt) i ↔ idx ≤ i ∧ i < idx + pgCnt := by
    intro i
    rw [Covers, number]
  have unmarked : ∀ i, Covers s.pool ((s.pool.start + idx * pgSize) % 2 ^ 64, pgCnt) i →
      s.pool.poolBitmap.bits i = false := by
    intro i covers
    obtain ⟨low, high⟩ := (fresh i).mp covers
    have bit := clear (i - idx) (by omega)
    rw [Nat.add_sub_cancel' low] at bit
    exact bit
  have bound : ∀ i, Covers s.pool ((s.pool.start + idx * pgSize) % 2 ^ 64, pgCnt) i → i < s.pool.pages := by
    intro i covers
    have high := ((fresh i).mp covers).2
    rw [number] at within
    omega
  refine ⟨?_, rfl, setRun_bytesLen ..⟩
  have size : (⟨s.pool.start, setRun s.pool.poolBitmap idx pgCnt⟩ : MemPool).pages = s.pool.pages := by
    rw [MemPool.pages, setRun_bytesLen, MemPool.pages]
  constructor
  case bits =>
    intro i less
    have less' : i < s.pool.pages := size ▸ less
    show (setRun s.pool.poolBitmap idx pgCnt).bits i = true ↔ _
    rw [setRun_bits]
    by_cases here : idx ≤ i ∧ i < idx + pgCnt
    · rw [if_pos here]
      refine iff_of_true rfl (.inr ⟨_, List.mem_cons_self .., ?_⟩)
      exact (fresh i).mpr here
    · rw [if_neg here, exact.bits i less']
      apply or_congr Iff.rfl
      constructor
      · intro ⟨range, among, covers⟩
        exact ⟨range, List.mem_cons_of_mem _ among, covers⟩
      · intro ⟨range, among, covers⟩
        rcases List.mem_cons.mp among with rfl | old
        · exact absurd ((fresh i).mp covers) here
        · exact ⟨range, old, covers⟩
  case apart =>
    apply List.pairwise_cons.mpr
    refine ⟨?_, exact.apart⟩
    intro range among i both
    have free := unmarked i both.1
    rw [(exact.bits i (bound i both.1)).mpr (.inr ⟨range, among, both.2⟩)] at free
    cases free
  case inside =>
    intro range among
    show 1 ≤ range.2 ∧ idxStart s.pool range.1 + range.2 ≤ _
    rw [size]
    rcases List.mem_cons.mp among with rfl | old
    · exact ⟨one, within⟩
    · exact exact.inside range old
  case unreserved =>
    intro range among i covers
    rcases List.mem_cons.mp among with rfl | old
    · by_contra reserved
      have free := unmarked i covers
      rw [(exact.bits i (bound i covers)).mpr (.inl (by omega))] at free
      cases free
    · exact exact.unreserved range old i covers

/-- The run of pages that an allocation finds lies inside the bitmap. -/
def Within (s : Users) : PoolOp → Prop
  | .alloc pgCnt => ∀ addr next, poolAlloc s.pool pgCnt = .ok (addr, next) → idxStart s.pool addr + pgCnt ≤ s.pool.pages
  | .free .. => True

instance (s : Users) (op : PoolOp) : Decidable (Within s op) :=
  match op with
  | .alloc pgCnt =>
    match found : poolAlloc s.pool pgCnt with
    | .ok (addr, _) => decidable_of_iff (idxStart s.pool addr + pgCnt ≤ s.pool.pages) (by
        simp only [Within, found, Except.ok.injEq, Prod.mk.injEq]
        constructor
        · intro inside addr' next same
          rw [← same.1]
          exact inside
        · intro inside
          exact inside addr _ ⟨rfl, rfl⟩)
    | .error _ => .isTrue (by simp [Within, found])
  | .free .. => .isTrue True.intro

structure PoolInv (config : Config) (s : Users) : Prop where
  shape : Shape config s.pool
  exact : Exact config s

theorem step_alloc (ran : s.step (.alloc pgCnt) = .ok after) :
    1 ≤ pgCnt ∧ pgCnt < 2 ^ 64 ∧ ∃ addr next, poolAlloc s.pool pgCnt = .ok (addr, next) ∧
      after = ⟨next, (addr, pgCnt) :: s.live⟩ := by
  simp only [Users.step, bind_ok, offer_ok, decide_eq_true_eq, pure_ok, Prod.exists] at ran
  obtain ⟨_, size, addr, next, alloc, rfl⟩ := ran
  exact ⟨size.1, size.2, addr, next, alloc, rfl⟩

theorem step_free (ran : s.step (.free addr pgCnt) = .ok after) :
    (addr, pgCnt) ∈ s.live ∧ ∃ next, poolFree s.pool addr pgCnt = .ok next ∧
      after = ⟨next, s.live.erase (addr, pgCnt)⟩ := by
  simp only [Users.step, bind_ok, offer_ok, List.contains_iff_mem, pure_ok] at ran
  obtain ⟨_, member, next, free, rfl⟩ := ran
  exact ⟨member, next, free, rfl⟩

theorem poolInv_step (s : Users) (op : PoolOp) (after : Users) (inv : PoolInv config s) (within : Within s op)
    (ran : s.step op = .ok after) : PoolInv config after := by
  cases op with
  | alloc pgCnt =>
    obtain ⟨one, small, addr, next, alloc, rfl⟩ := step_alloc ran
    obtain ⟨exact, start, size⟩ := inv.exact.alloc inv.shape one small alloc (within addr next alloc)
    exact ⟨⟨start.trans inv.shape.start, size.trans inv.shape.bytesLen⟩, exact⟩
  | free addr pgCnt =>
    obtain ⟨member, next, free, rfl⟩ := step_free ran
    obtain ⟨exact, start, size⟩ := inv.exact.free member free
    exact ⟨⟨start.trans inv.shape.start, size.trans inv.shape.bytesLen⟩, exact⟩

theorem memPoolInit_bits (config : Config) (bits : Nat → Bool) (i : Nat) (inside : i < 8 * config.btmpBytesLen) :
    (memPoolInit config bits).poolBitmap.bits i = true ↔ i < config.res := by
  rw [memPoolInit, setRun_bits, Nat.zero_add]
  by_cases reserved : i < config.res
  · rw [if_pos ⟨Nat.zero_le i, reserved⟩]
    exact iff_of_true rfl reserved
  · have clear : (bitmapInit ⟨config.btmpBytesLen, bits⟩).bits i = false := if_pos inside
    rw [if_neg fun both => reserved both.2, clear]
    exact iff_of_false (by decide) reserved

theorem poolInv_start (config : Config) (bits : Nat → Bool) : PoolInv config (Users.start config bits) := by
  have size : (memPoolInit config bits).poolBitmap.bytesLen = config.btmpBytesLen := by
    rw [memPoolInit, setRun_bytesLen]
    rfl
  refine ⟨⟨rfl, size⟩, ?_, List.Pairwise.nil, ?_, ?_⟩
  · intro i less
    have less' : i < 8 * config.btmpBytesLen := by
      rw [← size]
      exact less
    rw [Users.start, memPoolInit_bits config bits i less']
    simp
  · intro range member
    cases member
  · intro range member
    cases member

/-- No page is handed out twice, and what was handed out can be given back. -/
theorem pool_exact (config : Config) (bits : Nat → Bool) (ops : List PoolOp) (s : Users)
    (within : Meets Users.step Within (Users.start config bits) ops)
    (ran : run Users.step (Users.start config bits) ops = .ok s) :
    Exact config s ∧
    (∀ addr pgCnt, (addr, pgCnt) ∈ s.live → ∃ next, poolFree s.pool addr pgCnt = .ok next) ∧
    ∀ pgCnt addr next, 1 ≤ pgCnt → poolAlloc s.pool pgCnt = .ok (addr, next) →
      idxStart s.pool addr + pgCnt ≤ s.pool.pages → ∀ i, Covers s.pool (addr, pgCnt) i →
        config.res ≤ i ∧ ∀ range ∈ s.live, ¬ Covers s.pool range i := by
  have inv := run_invariant poolInv_step (poolInv_start config bits) within ran
  refine ⟨inv.exact, ?_, ?_⟩
  · intro addr pgCnt member
    obtain ⟨next, free, _⟩ := inv.exact.free_ok member
    exact ⟨next, free⟩
  · intro pgCnt addr next one alloc inside i covers
    have small : pgCnt < 2 ^ 64 := by
      have fits := config.fits
      rw [← inv.shape.bytesLen] at fits
      simp only [MemPool.pages] at inside
      simp only [pgSize] at fits
      omega
    obtain ⟨exact, start, _⟩ := inv.exact.alloc inv.shape one small alloc inside
    have here : Covers next (addr, pgCnt) i := (covers_congr start _ _).mpr covers
    refine ⟨exact.unreserved _ (List.mem_cons_self ..) i here, ?_⟩
    intro range member there
    exact (List.pairwise_cons.mp exact.apart).1 range member i ⟨here, (covers_congr start _ _).mpr there⟩

def smallPool : Config where
  start := 0x1000
  btmpBytesLen := 2
  res := 3
  low := by decide
  fits := by decide

def smallOps : List PoolOp := [.alloc 2, .alloc 4, .free 0x4000 2, .alloc 3]

theorem pool_exact_reused : ∃ s, run Users.step (Users.start smallPool fun _ => true) smallOps = .ok s ∧
    s.live = [(0xa000, 3), (0x6000, 4)] ∧ Exact smallPool s := by
  have evaluated : endsIn (run Users.step (Users.start smallPool fun _ => true) smallOps) (fun s =>
      decide (s.live = [(0xa000, 3), (0x6000, 4)])) = true := by
    decide +kernel
  have within : meetsCheck Users.step Within (Users.start smallPool fun _ => true) smallOps = true := by
    decide +kernel
  obtain ⟨s, ran, check⟩ := exists_of_endsIn evaluated
  exact ⟨s, ran, of_decide_eq_true check, (pool_exact _ _ smallOps s (meets_of_check within) ran).1⟩

end RecoverOs.Memory.Pool
