import Mathlib.Data.List.Count
import Mathlib.Data.List.Nodup
import Mathlib.Data.List.Perm.Subperm
import RecoverOs.Lib.LinkedList
import RecoverOs.Memory.Pool

namespace RecoverOs.Memory.Slab

open Lib Pool Transition

structure Place where
  kBlockDescs : Nat
  start : Nat
  bytesLen : Nat
  below : kBlockDescs + 7 * 80 ≤ start
  aligned : start % pgSize = 0
  fits : start + 8 * bytesLen * pgSize ≤ 2 ^ 64

def descCnt : Nat := 7

def blockSize : Nat → Nat
  | 0 => 16
  | idx + 1 => blockSize idx * 2

def arenaSize : Nat := 16

def blocksPerArena (desc : Nat) : Nat := (pgSize - arenaSize) / blockSize desc

def freeList (place : Place) (desc : Nat) : PList where
  head := place.kBlockDescs + 80 * desc + 8
  tail := place.kBlockDescs + 80 * desc + 24

/-- `desc` is the index of the descriptor. -/
structure Arena where
  desc : Nat
  freeBlockCnt : Nat
  deriving DecidableEq, Repr

/-- `lock` is the value of the semaphore of each descriptor. -/
structure Kmem where
  nodes : Nodes
  arena : Nat → Arena
  lock : Nat → Nat
  pool : MemPool

def descInit (place : Place) (nodes : Nodes) : Nat → Nodes
  | 0 => nodes
  | idx + 1 => listInit (descInit place nodes idx) (freeList place idx)

def blockDescInit (place : Place) (nodes : Nodes) (arena : Nat → Arena) (pool : MemPool) : Kmem where
  nodes := descInit place nodes descCnt
  arena := arena
  lock := fun _ => 1
  pool := pool

def arena2block (a desc idx : Nat) : Nat := a + arenaSize + blockSize desc * idx

def block2arena (b : Nat) : Nat := b - b % pgSize

/-- The only task would wait for itself. -/
def semaDown (s : Kmem) (desc : Nat) : Except Halt Kmem := do
  if s.lock desc = 0 then .error .stuck
  else
    assert (decide (s.lock desc - 1 = 0))
    return { s with lock := Function.update s.lock desc (s.lock desc - 1) }

def semaUp (s : Kmem) (desc : Nat) : Except Halt Kmem := do
  assert (decide (s.lock desc = 0))
  assert (decide (s.lock desc + 1 = 1))
  return { s with lock := Function.update s.lock desc (s.lock desc + 1) }

def pushBlocks (place : Place) (nodes : Nodes) (a desc : Nat) : Nat → Nodes
  | 0 => nodes
  | idx + 1 => listPush (pushBlocks place nodes a desc idx) (freeList place desc) (arena2block a desc idx)

def arenaInit (place : Place) (s : Kmem) (desc : Nat) : Except Halt Kmem := do
  let (a, pool) ← Pool.poolAlloc s.pool 1
  return { s with
    pool := pool
    arena := Function.update s.arena a ⟨desc, blocksPerArena desc⟩
    nodes := pushBlocks place s.nodes a desc (blocksPerArena desc) }

/-- The loop of `kalloc` from `idx` on, with `left` descriptors to look at. -/
def descFrom (size idx : Nat) : Nat → Nat
  | 0 => idx
  | left + 1 => if size ≤ blockSize idx then idx else descFrom size (idx + 1) left

def descIdx (size : Nat) : Nat := descFrom size 0 descCnt

/-- A page is cut up if there is no block to take. -/
def refill (place : Place) (s : Kmem) (desc : Nat) : Except Halt Kmem :=
  if listEmpty s.nodes (freeList place desc) then arenaInit place s desc else .ok s

def takeBlock (place : Place) (s : Kmem) (desc : Nat) : Nat × Kmem :=
  let (b, nodes) := listPop s.nodes (freeList place desc)
  let a := block2arena b
  let cnt := ((s.arena a).freeBlockCnt + 2 ^ 64 - 1) % 2 ^ 64
  (b, { s with nodes := nodes, arena := Function.update s.arena a { s.arena a with freeBlockCnt := cnt } })

def kalloc (place : Place) (s : Kmem) (size : Nat) : Except Halt (Nat × Kmem) := do
  assert (decide (size ≤ 1024))
  let desc := descIdx size
  let s ← semaDown s desc
  let s ← refill place s desc
  let (b, s) := takeBlock place s desc
  let s ← semaUp s desc
  return (b, s)

/-- No list is longer than the pages of the pool have blocks of sixteen bytes. -/
def listFuel (place : Place) : Nat := 256 * (8 * place.bytesLen) + 1

/-- The first turns of the loop of `kfree`. -/
def removeBlocks (place : Place) (nodes : Nodes) (a desc : Nat) : Nat → Except Halt Nodes
  | 0 => .ok nodes
  | idx + 1 => do
    let nodes ← removeBlocks place nodes a desc idx
    let found ← elemFind nodes (freeList place desc) (arena2block a desc idx) (listFuel place)
    assert found
    return listRemove nodes (arena2block a desc idx)

def putBlock (place : Place) (s : Kmem) (b : Nat) : Except Halt Kmem := do
  let a := block2arena b
  let desc := (s.arena a).desc
  let found ← elemFind s.nodes (freeList place desc) b (listFuel place)
  assert (!found)
  let cnt := ((s.arena a).freeBlockCnt + 1) % 2 ^ 64
  return { s with
    nodes := listAppend s.nodes (freeList place desc) b
    arena := Function.update s.arena a { s.arena a with freeBlockCnt := cnt } }

/-- The page goes back when all its blocks are in the list. -/
def retire (place : Place) (s : Kmem) (a : Nat) : Except Halt Kmem := do
  let desc := (s.arena a).desc
  if (s.arena a).freeBlockCnt = blocksPerArena desc then
    let nodes ← removeBlocks place s.nodes a desc (blocksPerArena desc)
    let pool ← Pool.poolFree s.pool a 1
    return { s with nodes := nodes, pool := pool }
  else return s

def kfree (place : Place) (s : Kmem) (addr : Nat) : Except Halt Kmem := do
  let a := block2arena addr
  let desc := (s.arena a).desc
  let s ← semaDown s desc
  let s ← putBlock place s addr
  let s ← retire place s a
  semaUp s desc

/-- The allocator and the blocks that its callers hold, each with the size asked for. -/
structure Callers where
  kmem : Kmem
  live : List (Nat × Nat)

def Callers.addrs (s : Callers) : List Nat := s.live.map Prod.fst

/-- `kalloc` of a size it takes, `kfree` of a block held, and a holder writing inside its block. -/
inductive SlabOp where
  | kalloc (size : Nat)
  | kfree (addr : Nat)
  | write (addr : Nat) (value : Linked.Node Nat)

def Callers.step (place : Place) (s : Callers) : SlabOp → Except Halt Callers
  | .kalloc size => do
    offer (decide (size ≤ 1024))
    let (b, kmem) ← kalloc place s.kmem size
    return { kmem := kmem, live := (b, size) :: s.live }
  | .kfree addr => do
    offer (decide (addr ∈ s.addrs))
    let kmem ← kfree place s.kmem addr
    return { kmem := kmem, live := s.live.filter fun block => block.1 ≠ addr }
  | .write addr value => do
    offer (s.live.any fun block => decide (block.1 ≤ addr ∧ addr < block.1 + block.2))
    return { s with kmem := { s.kmem with nodes := Function.update s.kmem.nodes addr value } }

def Callers.start (place : Place) (nodes : Nodes) (arena : Nat → Arena) (pool : MemPool) : Callers :=
  ⟨blockDescInit place nodes arena pool, []⟩

variable {place : Place} {nodes after : Nodes} {free : Nat → List Nat} {a desc idx b x : Nat}

theorem blockSize_pos (desc : Nat) : 0 < blockSize desc := by
  induction desc with
  | zero => decide
  | succ desc ih => rw [blockSize]; omega

theorem blockSize_mod (desc : Nat) : blockSize desc % 16 = 0 := by
  induction desc with
  | zero => decide
  | succ desc ih => rw [blockSize]; omega

theorem descFrom_spec (size : Nat) (idx left : Nat) (largest : size ≤ blockSize (idx + left)) :
    descFrom size idx left ≤ idx + left ∧ size ≤ blockSize (descFrom size idx left) := by
  induction left generalizing idx with
  | zero => exact ⟨Nat.le_refl _, largest⟩
  | succ left ih =>
    rw [descFrom]
    split
    · rename_i enough
      exact ⟨Nat.le_add_right _ _, enough⟩
    · have rest := ih (idx + 1) (by rw [Nat.add_right_comm]; exact largest)
      exact ⟨by omega, rest.2⟩

theorem descIdx_spec {size : Nat} (small : size ≤ 1024) : descIdx size < descCnt ∧ size ≤ blockSize (descIdx size) := by
  have six : size ≤ blockSize (0 + 6) := small
  have found := descFrom_spec size 0 6 six
  have same : descIdx size = descFrom size 0 6 := by
    unfold descIdx descCnt
    simp only [descFrom]
    have last : size ≤ blockSize (0 + 1 + 1 + 1 + 1 + 1 + 1) := small
    simp only [if_pos last]
  rw [same, descCnt]
  exact ⟨by omega, found.2⟩

theorem block_fits (inside : idx < blocksPerArena desc) :
    arenaSize + blockSize desc * idx + blockSize desc ≤ pgSize := by
  have full : (idx + 1) * blockSize desc ≤ pgSize - arenaSize :=
    Nat.le_trans (Nat.mul_le_mul_right _ inside) (Nat.div_mul_le_self _ _)
  have same : blockSize desc * idx + blockSize desc = (idx + 1) * blockSize desc := by
    rw [Nat.add_mul, Nat.one_mul, Nat.mul_comm]
  have room : arenaSize ≤ pgSize := by decide
  omega

theorem block2arena_arena2block (aligned : a % pgSize = 0) (inside : idx < blocksPerArena desc) :
    block2arena (arena2block a desc idx) = a := by
  have fits := block_fits inside
  have pos := blockSize_pos desc
  unfold block2arena arena2block
  simp only [pgSize, arenaSize] at fits aligned ⊢
  generalize blockSize desc * idx = offset at fits ⊢
  omega

theorem arena2block_mod (aligned : a % pgSize = 0) : arena2block a desc idx % 16 = 0 := by
  have size : blockSize desc * idx % 16 = 0 := by
    rw [Nat.mul_mod, blockSize_mod, Nat.zero_mul, Nat.zero_mod]
  unfold arena2block
  simp only [pgSize, arenaSize] at aligned ⊢
  omega

theorem arena2block_apart {i j : Nat} (less : i < j) :
    arena2block a desc i + blockSize desc ≤ arena2block a desc j := by
  have step : blockSize desc * (i + 1) ≤ blockSize desc * j := Nat.mul_le_mul_left _ less
  rw [Nat.mul_succ] at step
  unfold arena2block
  omega

theorem arena2block_inj {i j : Nat} (same : arena2block a desc i = arena2block a desc j) : i = j := by
  have pos := blockSize_pos desc
  rcases Nat.lt_trichotomy i j with less | equal | more
  · have apart := @arena2block_apart a desc i j less
    omega
  · exact equal
  · have apart := @arena2block_apart a desc j i more
    omega

structure Lists (place : Place) (nodes : Nodes) (free : Nat → List Nat) : Prop where
  rep : ∀ desc < descCnt, Represents nodes (freeList place desc) (free desc)
  apart : ∀ desc < descCnt, ∀ other < descCnt, desc ≠ other → ∀ b ∈ free desc, b ∉ free other
  above : ∀ desc < descCnt, ∀ b ∈ free desc, place.start ≤ b

theorem sentinel_below (small : desc < descCnt) :
    (freeList place desc).head < place.start ∧ (freeList place desc).tail < place.start := by
  have below := place.below
  simp only [freeList, descCnt] at small ⊢
  omega

theorem sentinels_apart {other : Nat} (different : desc ≠ other) :
    (freeList place desc).head ≠ (freeList place other).head ∧ (freeList place desc).head ≠ (freeList place other).tail ∧
    (freeList place desc).tail ≠ (freeList place other).head ∧ (freeList place desc).tail ≠ (freeList place other).tail := by
  simp only [freeList]
  omega

theorem Lists.cells_apart {other : Nat} (lists : Lists place nodes free) (small : desc < descCnt)
    (small' : other < descCnt) (different : desc ≠ other) :
    ∀ b ∈ (freeList place desc).cells (free desc), b ∉ (freeList place other).cells (free other) := by
  intro b here there
  have low := @sentinel_below place desc small
  have low' := @sentinel_below place other small'
  have sentinels := @sentinels_apart place desc other different
  rw [mem_cells] at here there
  rcases here with rfl | here | rfl
  · rcases there with same | there | same
    · exact sentinels.1 same
    · have high := lists.above other small' _ there
      omega
    · exact sentinels.2.1 same
  · have high := lists.above desc small b here
    rcases there with rfl | there | rfl
    · omega
    · exact lists.apart desc small other small' different b here there
    · omega
  · rcases there with same | there | same
    · exact sentinels.2.2.1 same
    · have high := lists.above other small' _ there
      omega
    · exact sentinels.2.2.2 same

theorem outside_cells (small : desc < descCnt) (high : place.start ≤ b) (absent : b ∉ free desc) :
    b ∉ (freeList place desc).cells (free desc) := by
  have low := @sentinel_below place desc small
  rw [mem_cells]
  rintro (rfl | member | rfl)
  · omega
  · exact absent member
  · omega

theorem Lists.change {elems : List Nat} (lists : Lists place nodes free) (small : desc < descCnt)
    (rep : Represents after (freeList place desc) elems)
    (members : ∀ x ∈ elems, place.start ≤ x ∧ ∀ other < descCnt, other ≠ desc → x ∉ free other)
    (frame : ∀ x, x ∉ (freeList place desc).cells (free desc) → x ∉ elems → after x = nodes x) :
    Lists place after (Function.update free desc elems) := by
  constructor
  case rep =>
    intro other small'
    by_cases same : other = desc
    · subst same
      rwa [Function.update_self]
    · rw [Function.update_of_ne same]
      apply (lists.rep other small').frame
      intro x cell
      have low := @sentinel_below place other small'
      apply frame x (lists.cells_apart small' small same x cell)
      intro member
      have clear := members x member
      rw [mem_cells] at cell
      rcases cell with rfl | inside | rfl
      · omega
      · exact clear.2 other small' same inside
      · omega
  case apart =>
    intro one small1 two small2 different b here
    by_cases first : one = desc
    · subst first
      rw [Function.update_self] at here
      rw [Function.update_of_ne (Ne.symm different)]
      exact (members b here).2 two small2 (Ne.symm different)
    · rw [Function.update_of_ne first] at here
      by_cases second : two = desc
      · subst second
        rw [Function.update_self]
        exact fun there => (members b there).2 one small1 first here
      · rw [Function.update_of_ne second]
        exact lists.apart one small1 two small2 different b here
  case above =>
    intro other small' b here
    by_cases same : other = desc
    · subst same
      rw [Function.update_self] at here
      exact (members b here).1
    · rw [Function.update_of_ne same] at here
      exact lists.above other small' b here

theorem Lists.members_keep (lists : Lists place nodes free) (small : desc < descCnt) (member : x ∈ free desc) :
    place.start ≤ x ∧ ∀ other < descCnt, other ≠ desc → x ∉ free other :=
  ⟨lists.above desc small x member, fun other small' different =>
    lists.apart desc small other small' (Ne.symm different) x member⟩

theorem Lists.push (lists : Lists place nodes free) (small : desc < descCnt) (high : place.start ≤ b)
    (fresh : ∀ other < descCnt, b ∉ free other) :
    Lists place (listPush nodes (freeList place desc) b) (Function.update free desc (b :: free desc)) := by
  have rep := lists.rep desc small
  apply lists.change small (rep.push (outside_cells small high (fresh desc small)))
  · intro x member
    rcases List.mem_cons.mp member with rfl | old
    · exact ⟨high, fun other small' _ => fresh other small'⟩
    · exact lists.members_keep small old
  · intro x outside new
    exact rep.push_frame outside fun same => new (by simp [same])

theorem Lists.append (lists : Lists place nodes free) (small : desc < descCnt) (high : place.start ≤ b)
    (fresh : ∀ other < descCnt, b ∉ free other) :
    Lists place (listAppend nodes (freeList place desc) b) (Function.update free desc (free desc ++ [b])) := by
  have rep := lists.rep desc small
  apply lists.change small (rep.append (outside_cells small high (fresh desc small)))
  · intro x member
    rcases List.mem_append.mp member with old | new
    · exact lists.members_keep small old
    · rw [List.mem_singleton.mp new]
      exact ⟨high, fun other small' _ => fresh other small'⟩
  · intro x outside new
    exact rep.append_frame outside fun same => new (by simp [same])

theorem Lists.remove (lists : Lists place nodes free) (small : desc < descCnt) (member : b ∈ free desc) :
    Lists place (listRemove nodes b) (Function.update free desc ((free desc).erase b)) := by
  have rep := lists.rep desc small
  apply lists.change small (rep.remove member)
  · intro x kept
    exact lists.members_keep small (List.mem_of_mem_erase kept)
  · intro x outside _
    exact rep.remove_frame member outside

theorem Lists.write {value : Linked.Node Nat} (lists : Lists place nodes free) (high : place.start ≤ x)
    (absent : ∀ desc < descCnt, x ∉ free desc) : Lists place (Function.update nodes x value) free := by
  constructor
  case rep =>
    intro desc small
    apply (lists.rep desc small).frame
    intro y cell
    apply Function.update_of_ne
    rintro rfl
    exact outside_cells small high (absent desc small) cell
  case apart => exact lists.apart
  case above => exact lists.above

theorem listInit_other {plist : PList} (head : x ≠ plist.head) (tail : x ≠ plist.tail) :
    listInit nodes plist x = nodes x := by
  rw [listInit, Function.update_of_ne tail, Function.update_of_ne head]

theorem descInit_rep (nodes : Nodes) (cnt : Nat) :
    ∀ desc < cnt, Represents (descInit place nodes cnt) (freeList place desc) [] := by
  induction cnt with
  | zero =>
    intro desc none
    cases none
  | succ cnt ih =>
    intro desc less
    rw [descInit]
    by_cases last : desc = cnt
    · subst last
      apply represents_init
      simp only [freeList]
      omega
    · apply (ih desc (by omega)).frame
      intro x cell
      have apart := @sentinels_apart place desc cnt last
      simp only [mem_cells, List.not_mem_nil, false_or] at cell
      rcases cell with rfl | rfl
      · exact listInit_other apart.1 apart.2.1
      · exact listInit_other apart.2.2.1 apart.2.2.2

theorem lists_descInit (nodes : Nodes) : Lists place (descInit place nodes descCnt) fun _ => [] := by
  constructor
  case rep => exact descInit_rep nodes descCnt
  case apart => simp
  case above => simp

def pushed (a desc cnt : Nat) : List Nat := (List.range cnt).reverse.map (arena2block a desc)

theorem mem_pushed {cnt : Nat} : x ∈ pushed a desc cnt ↔ ∃ i < cnt, x = arena2block a desc i := by
  simp only [pushed, List.mem_map, List.mem_reverse, List.mem_range]
  constructor
  · rintro ⟨i, less, rfl⟩
    exact ⟨i, less, rfl⟩
  · rintro ⟨i, less, rfl⟩
    exact ⟨i, less, rfl⟩

theorem pushed_succ (a desc cnt : Nat) : pushed a desc (cnt + 1) = arena2block a desc cnt :: pushed a desc cnt := by
  simp [pushed, List.range_succ]

theorem Lists.pushBlocks (lists : Lists place nodes free) (small : desc < descCnt) (aligned : a % pgSize = 0)
    (high : place.start ≤ a) (fresh : ∀ other < descCnt, ∀ x ∈ free other, block2arena x ≠ a) {cnt : Nat}
    (bound : cnt ≤ blocksPerArena desc) :
    Lists place (Slab.pushBlocks place nodes a desc cnt)
      (Function.update free desc (pushed a desc cnt ++ free desc)) := by
  induction cnt with
  | zero =>
    have same : Function.update free desc (pushed a desc 0 ++ free desc) = free := Function.update_eq_self desc free
    rw [same]
    exact lists
  | succ cnt ih =>
    have page : block2arena (arena2block a desc cnt) = a := block2arena_arena2block aligned bound
    have absent : ∀ other < descCnt, arena2block a desc cnt ∉ free other :=
      fun other small' member => fresh other small' _ member page
    have more := (ih (Nat.le_of_succ_le bound)).push (b := arena2block a desc cnt) small
      (by unfold arena2block; omega) ?_
    · rw [Function.update_self, Function.update_idem] at more
      rw [pushed_succ]
      exact more
    · intro other small'
      by_cases same : other = desc
      · subst same
        rw [Function.update_self, List.mem_append, mem_pushed]
        rintro (⟨i, less, equal⟩ | old)
        · have index := arena2block_inj equal
          omega
        · exact absent other small' old
      · rw [Function.update_of_ne same]
        exact absent other small'

theorem Lists.removeBlocks (lists : Lists place nodes free) (small : desc < descCnt)
    (short : (free desc).length < listFuel place)
    (all : ∀ i < blocksPerArena desc, arena2block a desc i ∈ free desc) {cnt : Nat} (bound : cnt ≤ blocksPerArena desc) :
    ∃ after elems, Slab.removeBlocks place nodes a desc cnt = .ok after ∧
      Lists place after (Function.update free desc elems) ∧ elems.Sublist (free desc) ∧
      (∀ x, x ∈ elems ↔ x ∈ free desc ∧ ∀ i < cnt, x ≠ arena2block a desc i) ∧
      ∀ p : Nat → Bool, (∀ i < cnt, p (arena2block a desc i) = false) → elems.countP p = (free desc).countP p := by
  induction cnt with
  | zero =>
    refine ⟨nodes, free desc, rfl, ?_, List.Sublist.refl _, ?_, ?_⟩
    · rw [Function.update_eq_self]
      exact lists
    · simp
    · simp
  | succ cnt ih =>
    obtain ⟨middle, elems, ran, inner, sub, members, counts⟩ := ih (Nat.le_of_succ_le bound)
    have here : arena2block a desc cnt ∈ elems := by
      refine (members _).mpr ⟨all cnt bound, ?_⟩
      intro i less same
      have index := arena2block_inj same
      omega
    have rep := inner.rep desc small
    rw [Function.update_self] at rep
    have found : elemFind middle (freeList place desc) (arena2block a desc cnt) (listFuel place) = .ok true := by
      rw [rep.find (Nat.lt_of_le_of_lt sub.length_le short), decide_eq_true here]
    refine ⟨listRemove middle (arena2block a desc cnt), elems.erase (arena2block a desc cnt), ?_, ?_, ?_, ?_, ?_⟩
    · simp only [Slab.removeBlocks, ran, found, bind_ok, Except.ok.injEq, exists_eq_left', assert_ok, exists_const,
        true_and, pure_ok]
    · have removed := inner.remove small (by rw [Function.update_self]; exact here)
      rwa [Function.update_self, Function.update_idem] at removed
    · exact List.erase_sublist.trans sub
    · intro x
      rw [rep.nodup_elems.mem_erase_iff, members]
      constructor
      · rintro ⟨other, old, apart⟩
        refine ⟨old, ?_⟩
        intro i less
        rcases Nat.lt_succ_iff_lt_or_eq.mp less with before | rfl
        · exact apart i before
        · exact other
      · rintro ⟨old, apart⟩
        exact ⟨apart cnt (Nat.lt_succ_self cnt), old, fun i less => apart i (Nat.lt_succ_of_lt less)⟩
    · intro p misses
      rw [List.countP_erase, counts p fun i less => misses i (Nat.lt_succ_of_lt less), misses cnt (Nat.lt_succ_self cnt)]
      simp

theorem length_le_of_blocks {elems : List Nat} (nodup : elems.Nodup)
    (range : ∀ x ∈ elems, place.start ≤ x ∧ x < place.start + 8 * place.bytesLen * pgSize ∧ x % 16 = 0) :
    elems.length < listFuel place := by
  have aligned := place.aligned
  have injective : (elems.map fun x => (x - place.start) / 16).Nodup := by
    apply List.Nodup.map_on _ nodup
    intro x here y there same
    have left := range x here
    have right := range y there
    simp only [pgSize] at aligned
    omega
  have inside : (elems.map fun x => (x - place.start) / 16) ⊆ List.range (256 * (8 * place.bytesLen)) := by
    intro k member
    obtain ⟨x, here, rfl⟩ := List.mem_map.mp member
    have bounds := range x here
    rw [List.mem_range]
    simp only [pgSize] at bounds
    omega
  have bound := (List.subperm_of_subset injective inside).length_le
  rw [List.length_map, List.length_range] at bound
  rw [listFuel]
  omega

end RecoverOs.Memory.Slab
