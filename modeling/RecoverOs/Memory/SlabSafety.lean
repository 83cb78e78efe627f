import RecoverOs.Memory.Slab

namespace RecoverOs.Memory.Slab

open Lib Pool Transition

/-- The page at `a` has been cut into blocks and not been given back: its bit, clear at the start, is set. -/
def Cut (place : Place) (initial pool : MemPool) (a : Nat) : Prop :=
  ∃ i < 8 * place.bytesLen, a = place.start + i * pgSize ∧ initial.poolBitmap.bits i = false ∧
    pool.poolBitmap.bits i = true

def Block (a desc b : Nat) : Prop := ∃ idx < blocksPerArena desc, b = arena2block a desc idx

def inArena (a b : Nat) : Bool := decide (block2arena b = a)

theorem inArena_self (b : Nat) : inArena (block2arena b) b = true := decide_eq_true rfl

/-- What holds of the allocator also inside of `kalloc` and `kfree`; the lists are `free`. -/
structure Sound (place : Place) (initial : MemPool) (s : Kmem) (live : List (Nat × Nat)) (free : Nat → List Nat) :
    Prop where
  lists : Lists place s.nodes free
  start : s.pool.start = place.start
  bytesLen : s.pool.poolBitmap.bytesLen = place.bytesLen
  kept : ∀ i, initial.poolBitmap.bits i = true → s.pool.poolBitmap.bits i = true
  descs : ∀ a, Cut place initial s.pool a → (s.arena a).desc < descCnt
  members : ∀ desc < descCnt, ∀ b, b ∈ free desc ↔
    ∃ a, Cut place initial s.pool a ∧ (s.arena a).desc = desc ∧ Block a desc b ∧ b ∉ live.map Prod.fst
  count : ∀ a, Cut place initial s.pool a → (s.arena a).freeBlockCnt = (free (s.arena a).desc).countP (inArena a)
  held : ∀ block ∈ live, ∃ a, Cut place initial s.pool a ∧ Block a (s.arena a).desc block.1 ∧
    block.2 ≤ blockSize (s.arena a).desc
  nodup : (live.map Prod.fst).Nodup

def Below (place : Place) (initial : MemPool) (s : Kmem) : Prop :=
  ∀ a, Cut place initial s.pool a → (s.arena a).freeBlockCnt < blocksPerArena (s.arena a).desc

variable {place : Place} {initial pool : MemPool} {s after : Kmem} {live : List (Nat × Nat)} {free : Nat → List Nat}
variable {a b desc size : Nat}

theorem Cut.aligned (cut : Cut place initial pool a) : a % pgSize = 0 := by
  obtain ⟨i, -, rfl, -, -⟩ := cut
  have aligned := place.aligned
  simp only [pgSize] at aligned ⊢
  omega

theorem Cut.above (cut : Cut place initial pool a) : place.start ≤ a := by
  obtain ⟨i, -, rfl, -, -⟩ := cut
  exact Nat.le_add_right _ _

theorem Cut.within (cut : Cut place initial pool a) : a + pgSize ≤ place.start + 8 * place.bytesLen * pgSize := by
  obtain ⟨i, less, rfl, -, -⟩ := cut
  simp only [pgSize]
  omega

theorem Block.arena (block : Block a desc b) (aligned : a % pgSize = 0) : block2arena b = a := by
  obtain ⟨idx, less, rfl⟩ := block
  exact block2arena_arena2block aligned less

theorem Block.bounds (block : Block a desc b) : a + arenaSize ≤ b ∧ b + blockSize desc ≤ a + pgSize := by
  obtain ⟨idx, less, rfl⟩ := block
  have fits := block_fits less
  unfold arena2block
  omega

theorem Block.apart {other : Nat} (block : Block a desc b) (block' : Block a desc other) (different : b ≠ other) :
    b + blockSize desc ≤ other ∨ other + blockSize desc ≤ b := by
  obtain ⟨i, -, rfl⟩ := block
  obtain ⟨j, -, rfl⟩ := block'
  rcases Nat.lt_trichotomy i j with less | same | more
  · exact .inl (arena2block_apart less)
  · exact absurd (by rw [same]) different
  · exact .inr (arena2block_apart more)

theorem blocksPerArena_le (desc : Nat) : blocksPerArena desc ≤ 4080 := Nat.div_le_self _ _

theorem Sound.of_mem_free (sound : Sound place initial s live free) (small : desc < descCnt) (member : b ∈ free desc) :
    Cut place initial s.pool (block2arena b) ∧ (s.arena (block2arena b)).desc = desc ∧
      Block (block2arena b) desc b ∧ b ∉ live.map Prod.fst := by
  obtain ⟨a, cut, own, block, free⟩ := (sound.members desc small b).mp member
  rw [block.arena cut.aligned]
  exact ⟨cut, own, block, free⟩

theorem Sound.of_mem_live (sound : Sound place initial s live free) (member : b ∈ live.map Prod.fst) :
    Cut place initial s.pool (block2arena b) ∧ Block (block2arena b) (s.arena (block2arena b)).desc b := by
  obtain ⟨block, inside, rfl⟩ := List.mem_map.mp member
  obtain ⟨a, cut, own, -⟩ := sound.held block inside
  rw [own.arena cut.aligned]
  exact ⟨cut, own⟩

theorem Sound.short (sound : Sound place initial s live free) (small : desc < descCnt) :
    (free desc).length < listFuel place := by
  apply length_le_of_blocks (sound.lists.rep desc small).nodup_elems
  intro x member
  obtain ⟨cut, -, block, -⟩ := sound.of_mem_free small member
  have above := cut.above
  have within := cut.within
  have bounds := block.bounds
  have pos := blockSize_pos desc
  have aligned := cut.aligned
  refine ⟨by omega, by omega, ?_⟩
  obtain ⟨idx, -, same⟩ := block
  rw [same]
  exact arena2block_mod aligned

theorem Sound.count_full (sound : Sound place initial s live free) (cut : Cut place initial s.pool a) :
    (s.arena a).freeBlockCnt ≤ blocksPerArena (s.arena a).desc ∧
      ((s.arena a).freeBlockCnt = blocksPerArena (s.arena a).desc ↔
        ∀ i < blocksPerArena (s.arena a).desc, arena2block a (s.arena a).desc i ∈ free (s.arena a).desc) := by
  have small := sound.descs a cut
  have aligned := cut.aligned
  rw [sound.count a cut, List.countP_eq_length_filter]
  generalize (s.arena a).desc = desc at small
  have nodup : ((free desc).filter (inArena a)).Nodup := (sound.lists.rep desc small).nodup_elems.filter _
  have inside : (free desc).filter (inArena a) ⊆ pushed a desc (blocksPerArena desc) := by
    intro x member
    obtain ⟨here, page⟩ := List.mem_filter.mp member
    have block := (sound.of_mem_free small here).2.2.1
    rw [of_decide_eq_true page] at block
    exact mem_pushed.mpr block
  have length : (pushed a desc (blocksPerArena desc)).length = blocksPerArena desc := by
    simp [pushed]
  have sub := List.subperm_of_subset nodup inside
  refine ⟨length ▸ sub.length_le, ?_, ?_⟩
  · intro full i less
    have perm := sub.perm_of_length_le (by omega)
    exact (List.mem_filter.mp (perm.mem_iff.mpr (mem_pushed.mpr ⟨i, less, rfl⟩))).1
  · intro all
    have unique : (pushed a desc (blocksPerArena desc)).Nodup := by
      apply List.Nodup.map_on _ (List.nodup_reverse.mpr List.nodup_range)
      intro i _ j _ same
      exact arena2block_inj same
    have back : pushed a desc (blocksPerArena desc) ⊆ (free desc).filter (inArena a) := by
      intro x member
      obtain ⟨i, less, rfl⟩ := mem_pushed.mp member
      exact List.mem_filter.mpr ⟨all i less, decide_eq_true (block2arena_arena2block aligned less)⟩
    have more := (List.subperm_of_subset unique back).length_le
    have fewer := sub.length_le
    omega

def setCount (s : Kmem) (nodes : Nodes) (b cnt : Nat) : Kmem :=
  { s with
    nodes := nodes
    arena := Function.update s.arena (block2arena b) { s.arena (block2arena b) with freeBlockCnt := cnt } }

theorem setCount_desc (s : Kmem) (nodes : Nodes) (b cnt x : Nat) :
    ((setCount s nodes b cnt).arena x).desc = (s.arena x).desc := by
  by_cases same : x = block2arena b
  · subst same
    simp [setCount]
  · simp [setCount, same]

theorem setCount_cnt (s : Kmem) (nodes : Nodes) (b cnt x : Nat) :
    ((setCount s nodes b cnt).arena x).freeBlockCnt =
      if x = block2arena b then cnt else (s.arena x).freeBlockCnt := by
  by_cases same : x = block2arena b
  · subst same
    simp [setCount]
  · simp [setCount, same]

theorem Sound.takeBlock_eq {rest : List Nat} (sound : Sound place initial s live free) (small : desc < descCnt)
    (first : free desc = b :: rest) :
    takeBlock place s desc =
      (b, setCount s (listRemove s.nodes b) b ((s.arena (block2arena b)).freeBlockCnt - 1)) := by
  have rep := sound.lists.rep desc small
  obtain ⟨cut, own, -, -⟩ := sound.of_mem_free small (b := b) (by rw [first]; exact List.mem_cons_self ..)
  have count := sound.count _ cut
  have bound := (sound.count_full cut).1
  have few := blocksPerArena_le (s.arena (block2arena b)).desc
  rw [own, first, List.countP_cons_of_pos (inArena_self b)] at count
  have less : ((s.arena (block2arena b)).freeBlockCnt + 2 ^ 64 - 1) % 2 ^ 64 =
      (s.arena (block2arena b)).freeBlockCnt - 1 := by
    omega
  rw [first] at rep
  rw [takeBlock, rep.pop.1]
  dsimp only
  rw [less, setCount]

theorem Sound.take {rest : List Nat} {cnt : Nat} (sound : Sound place initial s live free) (small : desc < descCnt)
    (first : free desc = b :: rest) (fits : size ≤ blockSize desc)
    (less : cnt = (s.arena (block2arena b)).freeBlockCnt - 1) :
    Sound place initial (setCount s (listRemove s.nodes b) b cnt) ((b, size) :: live)
      (Function.update free desc rest) := by
  have member : b ∈ free desc := by
    rw [first]
    exact List.mem_cons_self ..
  obtain ⟨cut, own, block, unused⟩ := sound.of_mem_free small member
  have nodup := (sound.lists.rep desc small).nodup_elems
  rw [first, List.nodup_cons] at nodup
  have fewer : ∀ d < descCnt, ∀ x, x ∈ Function.update free desc rest d ↔ x ∈ free d ∧ x ≠ b := by
    intro d small' x
    by_cases same : d = desc
    · subst same
      rw [Function.update_self, first, List.mem_cons]
      constructor
      · intro old
        exact ⟨.inr old, fun equal => nodup.1 (equal ▸ old)⟩
      · rintro ⟨equal | old, other⟩
        · exact absurd equal other
        · exact old
    · rw [Function.update_of_ne same]
      constructor
      · intro old
        exact ⟨old, fun equal => sound.lists.apart d small' desc small same x old (equal ▸ member)⟩
      · exact fun both => both.1
  constructor
  case lists =>
    have removed := sound.lists.remove small member
    rw [first, List.erase_cons_head] at removed
    exact removed
  case start => exact sound.start
  case bytesLen => exact sound.bytesLen
  case kept => exact sound.kept
  case descs =>
    intro a inside
    rw [setCount_desc]
    exact sound.descs a inside
  case members =>
    intro d small' x
    simp only [fewer d small', sound.members d small', setCount_desc, List.map_cons, List.mem_cons, not_or]
    constructor
    · rintro ⟨⟨a, inside, mine, here, free⟩, other⟩
      exact ⟨a, inside, mine, here, other, free⟩
    · rintro ⟨a, inside, mine, here, other, free⟩
      exact ⟨⟨a, inside, mine, here, free⟩, other⟩
  case count =>
    intro a inside
    have old := sound.count a inside
    rw [setCount_cnt, setCount_desc]
    by_cases page : a = block2arena b
    · subst page
      rw [own, first, List.countP_cons_of_pos (inArena_self b)] at old
      rw [if_pos rfl, own, Function.update_self, less, old, Nat.add_sub_cancel]
    · rw [if_neg page]
      by_cases same : (s.arena a).desc = desc
      · have misses : ¬ inArena a b = true := fun hit => page (of_decide_eq_true hit).symm
        rw [same, first, List.countP_cons_of_neg misses] at old
        rw [same, Function.update_self, old]
      · rw [Function.update_of_ne same, old]
  case held =>
    intro asked inside
    simp only [setCount_desc]
    rcases List.mem_cons.mp inside with rfl | old
    · refine ⟨block2arena b, cut, ?_, ?_⟩
      · rw [own]
        exact block
      · rw [own]
        exact fits
    · exact sound.held asked old
  case nodup =>
    rw [List.map_cons, List.nodup_cons]
    exact ⟨unused, sound.nodup⟩

theorem Sound.putBlock_eq (sound : Sound place initial s live free) (member : b ∈ live.map Prod.fst) :
    putBlock place s b = .ok (setCount s (listAppend s.nodes (freeList place (s.arena (block2arena b)).desc) b) b
      ((s.arena (block2arena b)).freeBlockCnt + 1)) := by
  obtain ⟨cut, block⟩ := sound.of_mem_live member
  have small := sound.descs _ cut
  have bound := (sound.count_full cut).1
  have few := blocksPerArena_le (s.arena (block2arena b)).desc
  have absent : b ∉ free (s.arena (block2arena b)).desc :=
    fun inside => (sound.of_mem_free small inside).2.2.2 member
  have more : ((s.arena (block2arena b)).freeBlockCnt + 1) % 2 ^ 64 = (s.arena (block2arena b)).freeBlockCnt + 1 := by
    omega
  have found := (sound.lists.rep _ small).find (e := b) (sound.short small)
  rw [decide_eq_false absent] at found
  simp only [putBlock, found, more, bind_ok, Except.ok.injEq, exists_eq_left', assert_ok, Bool.not_false, exists_const,
    true_and, pure_ok, setCount]

theorem Sound.put (sound : Sound place initial s live free) (member : b ∈ live.map Prod.fst)
    (own : (s.arena (block2arena b)).desc = desc) {cnt : Nat}
    (more : cnt = (s.arena (block2arena b)).freeBlockCnt + 1) :
    Sound place initial (setCount s (listAppend s.nodes (freeList place desc) b) b cnt)
      (live.filter fun block => block.1 ≠ b) (Function.update free desc (free desc ++ [b])) := by
  obtain ⟨cut, block⟩ := sound.of_mem_live member
  have small := sound.descs _ cut
  rw [own] at block small
  have absent : ∀ d < descCnt, b ∉ free d :=
    fun d small' inside => (sound.of_mem_free small' inside).2.2.2 member
  have above : place.start ≤ b := Nat.le_trans cut.above (by have bounds := block.bounds; omega)
  have others : ∀ x, x ∈ (live.filter fun block => block.1 ≠ b).map Prod.fst ↔ x ∈ live.map Prod.fst ∧ x ≠ b := by
    intro x
    simp only [List.mem_map, List.mem_filter, decide_eq_true_eq]
    constructor
    · rintro ⟨asked, ⟨inside, other⟩, rfl⟩
      exact ⟨⟨asked, inside, rfl⟩, other⟩
    · rintro ⟨⟨asked, inside, rfl⟩, other⟩
      exact ⟨asked, ⟨inside, other⟩, rfl⟩
  have longer : ∀ d < descCnt, ∀ x, x ∈ Function.update free desc (free desc ++ [b]) d ↔
      x ∈ free d ∨ (x = b ∧ d = desc) := by
    intro d small' x
    by_cases same : d = desc
    · subst same
      simp
    · simp [same]
  constructor
  case lists => exact sound.lists.append small above absent
  case start => exact sound.start
  case bytesLen => exact sound.bytesLen
  case kept => exact sound.kept
  case descs =>
    intro a inside
    rw [setCount_desc]
    exact sound.descs a inside
  case members =>
    intro d small' x
    rw [longer d small']
    simp only [sound.members d small', setCount_desc, others]
    constructor
    · rintro (⟨a, inside, mine, here, free⟩ | ⟨rfl, rfl⟩)
      · exact ⟨a, inside, mine, here, fun both => free both.1⟩
      · exact ⟨block2arena x, cut, own, block, fun both => both.2 rfl⟩
    · rintro ⟨a, inside, mine, here, free⟩
      by_cases same : x = b
      · refine .inr ⟨same, ?_⟩
        rw [← mine, ← own, ← same, here.arena inside.aligned]
      · exact .inl ⟨a, inside, mine, here, fun old => free ⟨old, same⟩⟩
  case count =>
    intro a inside
    have old := sound.count a inside
    rw [setCount_cnt, setCount_desc]
    by_cases page : a = block2arena b
    · subst page
      rw [own] at old
      rw [if_pos rfl, own, Function.update_self, List.countP_append, List.countP_singleton, inArena_self, more, old]
      rfl
    · rw [if_neg page]
      by_cases same : (s.arena a).desc = desc
      · have misses : inArena a b = false := decide_eq_false fun hit => page hit.symm
        rw [same] at old
        rw [same, Function.update_self, List.countP_append, List.countP_singleton, misses, old]
        rfl
      · rw [Function.update_of_ne same, old]
  case held =>
    intro asked inside
    simp only [setCount_desc]
    exact sound.held asked (List.mem_of_mem_filter inside)
  case nodup => exact sound.nodup.sublist (List.filter_sublist.map Prod.fst)

theorem blocksPerArena_pos (small : desc < descCnt) : 0 < blocksPerArena desc := by
  have sizes : ∀ desc < descCnt, 0 < blocksPerArena desc := by decide
  exact sizes desc small

theorem cut_index (cut : Cut place initial pool a) {i : Nat} (same : a = place.start + i * pgSize) :
    initial.poolBitmap.bits i = false ∧ pool.poolBitmap.bits i = true := by
  obtain ⟨j, -, here, clear, set⟩ := cut
  have index : i = j := by
    simp only [pgSize] at here same
    omega
  rw [index]
  exact ⟨clear, set⟩

structure Pages (place : Place) (initial pool : MemPool) : Prop where
  start : pool.start = place.start
  bytesLen : pool.poolBitmap.bytesLen = place.bytesLen
  kept : ∀ i, initial.poolBitmap.bits i = true → pool.poolBitmap.bits i = true

theorem Pages.alloc {next : MemPool} (pages : Pages place initial pool) (taken : Pool.poolAlloc pool 1 = .ok (a, next)) :
    Pages place initial next ∧ ¬ Cut place initial pool a ∧
      ∀ x, Cut place initial next x ↔ Cut place initial pool x ∨ x = a := by
  obtain ⟨i, address, inside, clear, -, rfl⟩ := Pool.poolAlloc_cases (by decide) (by decide) taken
  have unset : pool.poolBitmap.bits i = false := clear 0 (by decide)
  have fits := place.fits
  rw [MemPool.pages, pages.bytesLen] at inside
  have here : a = place.start + i * pgSize := by
    rw [address, pages.start]
    apply Nat.mod_eq_of_lt
    simp only [pgSize] at fits ⊢
    omega
  have bits : ∀ j, (setRun pool.poolBitmap i 1).bits j = if j = i then true else pool.poolBitmap.bits j := by
    intro j
    rw [setRun_bits]
    by_cases same : j = i
    · rw [if_pos (by omega), if_pos same]
    · rw [if_neg (by omega), if_neg same]
  have before : initial.poolBitmap.bits i = false := by
    cases old : initial.poolBitmap.bits i with
    | false => rfl
    | true =>
      rw [pages.kept i old] at unset
      cases unset
  refine ⟨⟨pages.start, pages.bytesLen, ?_⟩, ?_, ?_⟩
  · intro j old
    show (setRun pool.poolBitmap i 1).bits j = true
    rw [bits, pages.kept j old, ite_self]
  · intro cut
    have set := (cut_index cut here).2
    rw [unset] at set
    cases set
  · intro x
    constructor
    · rintro ⟨j, less, there, old, set⟩
      dsimp only at set
      rw [bits] at set
      by_cases same : j = i
      · exact .inr (by rw [there, same, here])
      · rw [if_neg same] at set
        exact .inl ⟨j, less, there, old, set⟩
    · rintro (⟨j, less, there, old, set⟩ | rfl)
      · refine ⟨j, less, there, old, ?_⟩
        dsimp only
        rw [bits, set, ite_self]
      · refine ⟨i, inside, here, before, ?_⟩
        dsimp only
        rw [bits, if_pos rfl]

theorem Pages.giveBack (pages : Pages place initial pool) (cut : Cut place initial pool a) :
    ∃ next, Pool.poolFree pool a 1 = .ok next ∧ Pages place initial next ∧
      ∀ x, Cut place initial next x ↔ Cut place initial pool x ∧ x ≠ a := by
  obtain ⟨i, inside, here, before, set⟩ := cut
  have fits := place.fits
  have index : idxStart pool a = i := by
    simp only [idxStart, pages.start, here]
    simp only [pgSize] at fits ⊢
    omega
  obtain ⟨next, freed, start, size, cleared⟩ := @Pool.poolFree_ok pool a 1 (by
    intro k one
    have zero : k = 0 := by omega
    rw [zero, index]
    exact set)
  have bits : ∀ j, next.poolBitmap.bits j = if j = i then false else pool.poolBitmap.bits j := by
    intro j
    rw [cleared]
    by_cases same : j = i
    · rw [if_pos (by simp only [Covers, index]; omega), if_pos same]
    · rw [if_neg (by simp only [Covers, index]; omega), if_neg same]
  refine ⟨next, freed, ⟨start.trans pages.start, size.trans pages.bytesLen, ?_⟩, ?_⟩
  · intro j old
    have other : j ≠ i := by
      intro same
      rw [same, before] at old
      cases old
    rw [bits, if_neg other]
    exact pages.kept j old
  · intro x
    constructor
    · rintro ⟨j, less, there, old, marked⟩
      rw [bits] at marked
      by_cases same : j = i
      · rw [if_pos same] at marked
        cases marked
      · rw [if_neg same] at marked
        refine ⟨⟨j, less, there, old, marked⟩, ?_⟩
        simp only [pgSize] at there here
        omega
    · rintro ⟨⟨j, less, there, old, marked⟩, different⟩
      refine ⟨j, less, there, old, ?_⟩
      have other : j ≠ i := by
        intro same
        exact different (by rw [there, same, here])
      rw [bits, if_neg other]
      exact marked

theorem Sound.pages (sound : Sound place initial s live free) : Pages place initial s.pool :=
  ⟨sound.start, sound.bytesLen, sound.kept⟩

theorem Sound.arenaInit (sound : Sound place initial s live free) (small : desc < descCnt) (empty : free desc = [])
    (ran : arenaInit place s desc = .ok after) :
    ∃ a, after.lock = s.lock ∧ (∀ x, Cut place initial after.pool x ↔ Cut place initial s.pool x ∨ x = a) ∧
      (∀ x, x ≠ a → after.arena x = s.arena x) ∧
      Sound place initial after live (Function.update free desc (pushed a desc (blocksPerArena desc))) := by
  simp only [Slab.arenaInit, bind_ok, pure_ok, Prod.exists] at ran
  obtain ⟨a, pool, taken, rfl⟩ := ran
  obtain ⟨pages, fresh, cuts⟩ := sound.pages.alloc taken
  have page : a % pgSize = 0 := ((cuts a).mpr (.inr rfl)).aligned
  have notIn : ∀ d < descCnt, ∀ x ∈ free d, block2arena x ≠ a :=
    fun d small' x member same => fresh (same ▸ (sound.of_mem_free small' member).1)
  have notLive : ∀ x ∈ live.map Prod.fst, block2arena x ≠ a :=
    fun x member same => fresh (same ▸ (sound.of_mem_live member).1)
  have other : ∀ x, x ≠ a → Function.update s.arena a ⟨desc, blocksPerArena desc⟩ x = s.arena x :=
    fun x different => Function.update_of_ne different _ _
  have old : ∀ x, Cut place initial s.pool x → x ≠ a := fun x cut same => fresh (same ▸ cut)
  refine ⟨a, rfl, cuts, other, ?_⟩
  constructor
  case lists =>
    have above := ((cuts a).mpr (.inr rfl)).above
    have lists := sound.lists.pushBlocks small page above notIn (Nat.le_refl _)
    rwa [empty, List.append_nil] at lists
  case start => exact pages.start
  case bytesLen => exact pages.bytesLen
  case kept => exact pages.kept
  case descs =>
    intro x cut
    rcases (cuts x).mp cut with before | rfl
    · dsimp only
      rw [other x (old x before)]
      exact sound.descs x before
    · simpa using small
  case members =>
    intro d small' x
    constructor
    · intro member
      by_cases same : d = desc
      · subst same
        rw [Function.update_self, mem_pushed] at member
        refine ⟨a, (cuts a).mpr (.inr rfl), by simp, member, ?_⟩
        intro held
        have block : Block a d x := member
        exact notLive x held (block.arena page)
      · rw [Function.update_of_ne same] at member
        obtain ⟨y, cut, own, block, unheld⟩ := (sound.members d small' x).mp member
        refine ⟨y, (cuts y).mpr (.inl cut), ?_, block, unheld⟩
        dsimp only
        rw [other y (old y cut)]
        exact own
    · rintro ⟨y, cut, own, block, unheld⟩
      dsimp only at own
      rcases (cuts y).mp cut with before | rfl
      · rw [other y (old y before)] at own
        have member := (sound.members d small' x).mpr ⟨y, before, own, block, unheld⟩
        by_cases same : d = desc
        · subst same
          rw [empty] at member
          cases member
        · rwa [Function.update_of_ne same]
      · rw [Function.update_self] at own
        dsimp only at own
        subst own
        rw [Function.update_self]
        exact mem_pushed.mpr block
  case count =>
    intro x cut
    rcases (cuts x).mp cut with before | rfl
    · have different := old x before
      dsimp only
      rw [other x different, sound.count x before]
      by_cases same : (s.arena x).desc = desc
      · rw [same, empty, Function.update_self, List.countP_nil, eq_comm, List.countP_eq_zero]
        intro y member hit
        obtain ⟨k, less, rfl⟩ := mem_pushed.mp member
        have home := of_decide_eq_true hit
        rw [block2arena_arena2block page less] at home
        exact different home.symm
      · rw [Function.update_of_ne same]
    · have every : ∀ y ∈ pushed x desc (blocksPerArena desc), inArena x y = true := by
        intro y member
        obtain ⟨k, less, rfl⟩ := mem_pushed.mp member
        exact decide_eq_true (block2arena_arena2block page less)
      dsimp only
      rw [Function.update_self]
      dsimp only
      rw [Function.update_self, List.countP_eq_length.mpr every, pushed, List.length_map, List.length_reverse,
        List.length_range]
  case held =>
    intro asked member
    obtain ⟨y, cut, block, enough⟩ := sound.held asked member
    refine ⟨y, (cuts y).mpr (.inl cut), ?_⟩
    dsimp only
    rw [other y (old y cut)]
    exact ⟨block, enough⟩
  case nodup => exact sound.nodup

theorem Sound.retire (sound : Sound place initial s live free) (cut : Cut place initial s.pool a)
    (others : ∀ x, Cut place initial s.pool x → x ≠ a → (s.arena x).freeBlockCnt < blocksPerArena (s.arena x).desc) :
    ∃ after free', retire place s a = .ok after ∧ after.lock = s.lock ∧ Sound place initial after live free' ∧
      Below place initial after := by
  have small := sound.descs a cut
  have full := sound.count_full cut
  unfold Slab.retire
  dsimp only
  split
  case isFalse partly =>
    refine ⟨s, free, rfl, rfl, sound, ?_⟩
    intro x inside
    by_cases same : x = a
    · subst same
      omega
    · exact others x inside same
  case isTrue filled =>
    have all := full.2.mp filled
    obtain ⟨nodes, elems, removed, lists, sub, members, counts⟩ :=
      sound.lists.removeBlocks small (sound.short small) all (Nat.le_refl _)
    obtain ⟨pool, freed, pages, cuts⟩ := sound.pages.giveBack cut
    have keeps : ∀ d < descCnt, ∀ x,
        x ∈ Function.update free (s.arena a).desc elems d ↔ x ∈ free d ∧ block2arena x ≠ a := by
      intro d small' x
      by_cases same : d = (s.arena a).desc
      · subst same
        rw [Function.update_self, members]
        apply and_congr_right
        intro member
        have block := (sound.of_mem_free small member).2.2.1
        constructor
        · intro apart page
          rw [page] at block
          obtain ⟨i, less, here⟩ := block
          exact apart i less here
        · intro apart i less here
          exact apart (by rw [here, block2arena_arena2block cut.aligned less])
      · rw [Function.update_of_ne same]
        constructor
        · intro member
          refine ⟨member, fun page => same ?_⟩
          rw [← page]
          exact (sound.of_mem_free small' member).2.1.symm
        · exact fun both => both.1
    refine ⟨{ s with nodes := nodes, pool := pool }, Function.update free (s.arena a).desc elems, ?_, rfl, ?_, ?_⟩
    · simp only [removed, freed, bind_ok, Except.ok.injEq, exists_eq_left', pure_ok]
    · constructor
      case lists => exact lists
      case start => exact pages.start
      case bytesLen => exact pages.bytesLen
      case kept => exact pages.kept
      case descs =>
        intro x inside
        exact sound.descs x ((cuts x).mp inside).1
      case members =>
        intro d small' x
        rw [keeps d small', sound.members d small']
        constructor
        · rintro ⟨⟨y, inside, own, block, unheld⟩, elsewhere⟩
          rw [block.arena inside.aligned] at elsewhere
          exact ⟨y, (cuts y).mpr ⟨inside, elsewhere⟩, own, block, unheld⟩
        · rintro ⟨y, inside, own, block, unheld⟩
          have before := (cuts y).mp inside
          refine ⟨⟨y, before.1, own, block, unheld⟩, ?_⟩
          rw [block.arena inside.aligned]
          exact before.2
      case count =>
        intro x inside
        have before := (cuts x).mp inside
        show (s.arena x).freeBlockCnt = _
        rw [sound.count x before.1]
        by_cases same : (s.arena x).desc = (s.arena a).desc
        · have misses : ∀ i < blocksPerArena (s.arena a).desc, inArena x (arena2block a (s.arena a).desc i) = false := by
            intro i less
            apply decide_eq_false
            rw [block2arena_arena2block cut.aligned less]
            exact Ne.symm before.2
          show _ = (Function.update free (s.arena a).desc elems (s.arena x).desc).countP (inArena x)
          rw [same, Function.update_self, counts _ misses]
        · show _ = (Function.update free (s.arena a).desc elems (s.arena x).desc).countP (inArena x)
          rw [Function.update_of_ne same]
      case held =>
        intro asked member
        obtain ⟨y, inside, block, enough⟩ := sound.held asked member
        refine ⟨y, (cuts y).mpr ⟨inside, ?_⟩, block, enough⟩
        rintro rfl
        obtain ⟨i, less, here⟩ := block
        have listed := all i less
        rw [← here] at listed
        exact (sound.of_mem_free small listed).2.2.2 (List.mem_map_of_mem member)
      case nodup => exact sound.nodup
    · intro x inside
      have before := (cuts x).mp inside
      exact others x before.1 before.2

theorem Sound.relock (sound : Sound place initial s live free) (lock : Nat → Nat) :
    Sound place initial { s with lock := lock } live free :=
  ⟨sound.lists, sound.start, sound.bytesLen, sound.kept, sound.descs, sound.members, sound.count, sound.held, sound.nodup⟩

theorem Sound.write {block : Nat × Nat} {addr : Nat} {value : Linked.Node Nat} (sound : Sound place initial s live free)
    (member : block ∈ live) (low : block.1 ≤ addr) (high : addr < block.1 + block.2) :
    Sound place initial { s with nodes := Function.update s.nodes addr value } live free := by
  obtain ⟨a, cut, own, enough⟩ := sound.held block member
  have above := cut.above
  have bounds := own.bounds
  have aligned := cut.aligned
  refine ⟨?_, sound.start, sound.bytesLen, sound.kept, sound.descs, sound.members, sound.count, sound.held, sound.nodup⟩
  apply sound.lists.write
  · omega
  · intro desc small listed
    obtain ⟨cut', own', block', unheld⟩ := sound.of_mem_free small listed
    have page : block2arena addr = a := by
      unfold block2arena
      simp only [pgSize, arenaSize] at bounds aligned ⊢
      omega
    rw [page] at own' block'
    rw [own'] at own bounds enough
    have different : block.1 ≠ addr := by
      intro same
      rw [← same] at unheld
      exact unheld (List.mem_map_of_mem member)
    have apart := own.apart block' different
    have pos := blockSize_pos desc
    omega

structure SlabInv (place : Place) (initial : MemPool) (s : Callers) : Prop where
  locks : ∀ desc < descCnt, s.kmem.lock desc = 1
  below : Below place initial s.kmem
  sound : ∃ free, Sound place initial s.kmem s.live free

theorem semaDown_one (one : s.lock desc = 1) :
    semaDown s desc = .ok { s with lock := Function.update s.lock desc 0 } := by
  simp [semaDown, one, assert]

theorem semaUp_zero (zero : s.lock desc = 0) :
    semaUp s desc = .ok { s with lock := Function.update s.lock desc 1 } := by
  simp [semaUp, zero, assert]

theorem relocked {lock : Nat → Nat} (one : lock desc = 1) :
    Function.update (Function.update lock desc 0) desc 1 = lock := by
  rw [Function.update_idem, ← one, Function.update_eq_self]

/-- After `refill` there is a block to take, and only an arena that is wholly in this list is not in use. -/
theorem Sound.refill (sound : Sound place initial s live free) (below : Below place initial s)
    (small : desc < descCnt) :
    (∃ halt, Pool.poolAlloc s.pool 1 = .error halt ∧ refill place s desc = .error halt) ∨
    ∃ after free' b rest, refill place s desc = .ok after ∧ after.lock = s.lock ∧
      Sound place initial after live free' ∧ free' desc = b :: rest ∧
      ∀ x, Cut place initial after.pool x → x ≠ block2arena b →
        (after.arena x).freeBlockCnt < blocksPerArena (after.arena x).desc := by
  have rep := sound.lists.rep desc small
  unfold Slab.refill
  cases listed : free desc with
  | cons b rest =>
    have some : ¬ listEmpty s.nodes (freeList place desc) = true := by
      rw [rep.empty_iff, listed]
      exact List.cons_ne_nil b rest
    rw [if_neg some]
    exact .inr ⟨s, free, b, rest, rfl, rfl, sound, listed, fun x cut _ => below x cut⟩
  | nil =>
    rw [if_pos (rep.empty_iff.mpr listed)]
    cases taken : Pool.poolAlloc s.pool 1 with
    | error halt =>
      refine .inl ⟨halt, rfl, ?_⟩
      simp only [Slab.arenaInit, taken]
      rfl
    | ok pair =>
      have ran : ∃ after, Slab.arenaInit place s desc = .ok after := by
        simp [Slab.arenaInit, taken, Bind.bind, Except.bind, Pure.pure, Except.pure]
      obtain ⟨after, ran⟩ := ran
      obtain ⟨a, lock, cuts, arenas, next⟩ := sound.arenaInit small listed ran
      obtain ⟨cnt, more⟩ : ∃ cnt, blocksPerArena desc = cnt + 1 :=
        ⟨blocksPerArena desc - 1, by have pos := blocksPerArena_pos small; omega⟩
      have aligned := ((cuts a).mpr (.inr rfl)).aligned
      refine .inr ⟨after, _, arena2block a desc cnt, pushed a desc cnt, ran, lock, next, ?_, ?_⟩
      · rw [Function.update_self, more, pushed_succ]
      · intro x cut different
        rw [block2arena_arena2block aligned (by omega)] at different
        rw [arenas x different]
        rcases (cuts x).mp cut with before | same
        · exact below x before
        · exact absurd same different

variable {callers next : Callers}

theorem SlabInv.kalloc (inv : SlabInv place initial callers) (small : size ≤ 1024) :
    (∃ halt, Pool.poolAlloc callers.kmem.pool 1 = .error halt ∧ kalloc place callers.kmem size = .error halt) ∨
    ∃ b kmem, kalloc place callers.kmem size = .ok (b, kmem) ∧
      SlabInv place initial ⟨kmem, (b, size) :: callers.live⟩ := by
  obtain ⟨free, sound⟩ := inv.sound
  obtain ⟨few, fits⟩ := descIdx_spec small
  have one := inv.locks _ few
  have asked : assert (decide (size ≤ 1024)) = .ok () := by
    rw [assert_ok]
    exact decide_eq_true small
  unfold Slab.kalloc
  rw [asked]
  simp only [Bind.bind, Except.bind, semaDown_one one]
  rcases (sound.relock (Function.update callers.kmem.lock (descIdx size) 0)).refill inv.below few with
    ⟨halt, failed, ran⟩ | ⟨after, free', b, rest, ran, lock, filled, first, others⟩
  · left
    refine ⟨halt, failed, ?_⟩
    rw [ran]
  · right
    dsimp only at lock
    have zero : after.lock (descIdx size) = 0 := by rw [lock, Function.update_self]
    have taken := filled.take few first fits rfl
    have eq := filled.takeBlock_eq few first
    rw [ran]
    dsimp only
    rw [eq]
    dsimp only
    rw [semaUp_zero (s := setCount after _ b _) zero]
    refine ⟨b, _, rfl, ?_, ?_, _, taken.relock _⟩
    · intro desc less
      show Function.update after.lock (descIdx size) 1 desc = 1
      rw [lock, relocked one]
      exact inv.locks desc less
    · intro x cut
      dsimp only
      rw [setCount_cnt, setCount_desc]
      by_cases same : x = block2arena b
      · subst same
        obtain ⟨inside, own, -, -⟩ := filled.of_mem_free few (b := b) (by rw [first]; exact List.mem_cons_self ..)
        have bound := (filled.count_full inside).1
        have pos := blocksPerArena_pos few
        rw [if_pos rfl, own]
        rw [own] at bound
        omega
      · rw [if_neg same]
        exact others x cut same

theorem SlabInv.kfree (inv : SlabInv place initial callers) (held : b ∈ callers.addrs) :
    ∃ kmem, kfree place callers.kmem b = .ok kmem ∧
      SlabInv place initial ⟨kmem, callers.live.filter fun block => block.1 ≠ b⟩ := by
  obtain ⟨free, sound⟩ := inv.sound
  obtain ⟨cut, -⟩ := sound.of_mem_live held
  have few := sound.descs _ cut
  have one := inv.locks _ few
  generalize own : (callers.kmem.arena (block2arena b)).desc = desc at few one
  have unlocked := sound.relock (Function.update callers.kmem.lock desc 0)
  have put := unlocked.put held own rfl
  have eq := unlocked.putBlock_eq held
  have others : ∀ x, Cut place initial callers.kmem.pool x → x ≠ block2arena b →
      ((setCount { callers.kmem with lock := Function.update callers.kmem.lock desc 0 } (listAppend callers.kmem.nodes
        (freeList place desc) b) b ((callers.kmem.arena (block2arena b)).freeBlockCnt + 1)).arena x).freeBlockCnt <
      blocksPerArena ((setCount { callers.kmem with lock := Function.update callers.kmem.lock desc 0 }
        (listAppend callers.kmem.nodes (freeList place desc) b) b
        ((callers.kmem.arena (block2arena b)).freeBlockCnt + 1)).arena x).desc := by
    intro x inside different
    rw [setCount_cnt, setCount_desc, if_neg different]
    exact inv.below x inside
  obtain ⟨after, free', ran, lock, done, below⟩ := put.retire cut others
  have zero : after.lock desc = 0 := by
    rw [lock]
    show Function.update callers.kmem.lock desc 0 desc = 0
    rw [Function.update_self]
  refine ⟨{ after with lock := Function.update after.lock desc 1 }, ?_, ?_, below, free', done.relock _⟩
  · dsimp only at eq
    rw [own] at eq
    unfold Slab.kfree
    simp only [Bind.bind, Except.bind, own, semaDown_one one, eq, ran, semaUp_zero zero]
  · intro other less
    show Function.update after.lock desc 1 other = 1
    rw [lock]
    show Function.update (Function.update callers.kmem.lock desc 0) desc 1 other = 1
    rw [relocked one]
    exact inv.locks other less

theorem slabInv_step (s : Callers) (op : SlabOp) (after : Callers) (inv : SlabInv place initial s)
    (ran : s.step place op = .ok after) : SlabInv place initial after := by
  cases op with
  | kalloc size =>
    simp only [Callers.step, bind_ok, offer_ok, exists_const, pure_ok, Prod.exists, decide_eq_true_eq] at ran
    obtain ⟨small, b, kmem, taken, rfl⟩ := ran
    rcases inv.kalloc small with ⟨halt, -, failed⟩ | ⟨b', kmem', done, kept⟩
    · rw [failed] at taken
      cases taken
    · rw [done] at taken
      cases taken
      exact kept
  | kfree addr =>
    simp only [Callers.step, bind_ok, offer_ok, exists_const, pure_ok, decide_eq_true_eq] at ran
    obtain ⟨held, kmem, freed, rfl⟩ := ran
    obtain ⟨kmem', done, kept⟩ := inv.kfree held
    rw [done] at freed
    cases freed
    exact kept
  | write addr value =>
    simp only [Callers.step, bind_ok, offer_ok, exists_const, pure_ok, List.any_eq_true, decide_eq_true_eq] at ran
    obtain ⟨⟨block, member, low, high⟩, rfl⟩ := ran
    obtain ⟨free, sound⟩ := inv.sound
    exact ⟨inv.locks, inv.below, free, sound.write member low high⟩

def extent (s : Callers) (b : Nat) : Nat := blockSize (s.kmem.arena (block2arena b)).desc

/-- The blocks held, the free lists, the counters and the page pool agree. -/
structure Agree (place : Place) (initial : MemPool) (s : Callers) : Prop where
  roomy : ∀ block ∈ s.live, block.2 ≤ extent s block.1
  inside : ∀ b ∈ s.addrs, Cut place initial s.kmem.pool (block2arena b) ∧ block2arena b + arenaSize ≤ b ∧
    b + extent s b ≤ block2arena b + pgSize
  apart : s.addrs.Pairwise fun b other => b + extent s b ≤ other ∨ other + extent s other ≤ b
  descs : ∀ a, Cut place initial s.kmem.pool a → (s.kmem.arena a).desc < descCnt
  lists : ∀ desc < descCnt, ∃ elems, Represents s.kmem.nodes (freeList place desc) elems ∧ elems.Nodup ∧
    (∀ b, b ∈ elems ↔
      ∃ a, Cut place initial s.kmem.pool a ∧ (s.kmem.arena a).desc = desc ∧ Block a desc b ∧ b ∉ s.addrs) ∧
    ∀ a, Cut place initial s.kmem.pool a → (s.kmem.arena a).desc = desc →
      (s.kmem.arena a).freeBlockCnt = elems.countP (inArena a) ∧ (s.kmem.arena a).freeBlockCnt < blocksPerArena desc
  returned : ∀ i < 8 * place.bytesLen, s.kmem.pool.poolBitmap.bits i = true ↔
    initial.poolBitmap.bits i = true ∨ ∃ b ∈ s.addrs, block2arena b = place.start + i * pgSize

theorem SlabInv.used (inv : SlabInv place initial callers) (cut : Cut place initial callers.kmem.pool a) :
    ∃ b ∈ callers.addrs, block2arena b = a := by
  obtain ⟨free, sound⟩ := inv.sound
  have below := inv.below a cut
  have full := (sound.count_full cut).2
  have small := sound.descs a cut
  have missing : ∃ i < blocksPerArena (callers.kmem.arena a).desc,
      arena2block a (callers.kmem.arena a).desc i ∉ free (callers.kmem.arena a).desc := by
    by_contra all
    push Not at all
    have equal := full.mpr all
    omega
  obtain ⟨i, less, absent⟩ := missing
  refine ⟨_, ?_, block2arena_arena2block cut.aligned less⟩
  by_contra unheld
  exact absent ((sound.members _ small _).mpr ⟨a, cut, rfl, ⟨i, less, rfl⟩, unheld⟩)

theorem SlabInv.agree (inv : SlabInv place initial callers) : Agree place initial callers := by
  obtain ⟨free, sound⟩ := inv.sound
  constructor
  case roomy =>
    intro block member
    obtain ⟨a, cut, own, enough⟩ := sound.held block member
    rw [extent, own.arena cut.aligned]
    exact enough
  case inside =>
    intro b held
    obtain ⟨cut, block⟩ := sound.of_mem_live held
    exact ⟨cut, block.bounds⟩
  case apart =>
    apply List.Pairwise.imp_of_mem _ sound.nodup
    intro b other here there different
    obtain ⟨cut, block⟩ := sound.of_mem_live here
    obtain ⟨cut', block'⟩ := sound.of_mem_live there
    rw [extent, extent]
    by_cases same : block2arena b = block2arena other
    · rw [same] at block ⊢
      exact block.apart block' different
    · have bounds := block.bounds
      have bounds' := block'.bounds
      have aligned := cut.aligned
      have aligned' := cut'.aligned
      simp only [pgSize] at aligned aligned' bounds bounds'
      omega
  case descs => exact sound.descs
  case lists =>
    intro desc small
    refine ⟨free desc, sound.lists.rep desc small, (sound.lists.rep desc small).nodup_elems, sound.members desc small, ?_⟩
    intro a cut own
    have count := sound.count a cut
    have below := inv.below a cut
    rw [own] at count below
    exact ⟨count, below⟩
  case returned =>
    intro i less
    constructor
    · intro set
      cases before : initial.poolBitmap.bits i with
      | true => exact .inl rfl
      | false =>
        have cut : Cut place initial callers.kmem.pool (place.start + i * pgSize) := ⟨i, less, rfl, before, set⟩
        exact .inr (inv.used cut)
    · rintro (before | ⟨b, held, page⟩)
      · exact sound.kept i before
      · exact (cut_index (sound.of_mem_live held).1 page).2

theorem slabInv_start (nodes : Nodes) (arena : Nat → Arena) (start : initial.start = place.start)
    (bytesLen : initial.poolBitmap.bytesLen = place.bytesLen) :
    SlabInv place initial (Callers.start place nodes arena initial) := by
  have none : ∀ a, ¬ Cut place initial initial a := by
    rintro a ⟨i, -, -, clear, set⟩
    rw [clear] at set
    cases set
  refine ⟨fun desc _ => rfl, fun a cut => absurd cut (none a), fun _ => [], ?_⟩
  constructor
  case lists => exact lists_descInit nodes
  case start => exact start
  case bytesLen => exact bytesLen
  case kept => exact fun i set => set
  case descs => exact fun a cut => absurd cut (none a)
  case members =>
    intro desc small b
    constructor
    · intro member
      cases member
    · rintro ⟨a, cut, -⟩
      exact absurd cut (none a)
  case count => exact fun a cut => absurd cut (none a)
  case held =>
    intro block member
    cases member
  case nodup => exact List.nodup_nil

/-- After any calls from `block_desc_init` on the allocator is consistent, a block held can be freed, and `kalloc`
    stops only where the page pool has no page. -/
theorem slab_correct (place : Place) (nodes : Nodes) (arena : Nat → Arena) (pool : MemPool)
    (start : pool.start = place.start) (bytesLen : pool.poolBitmap.bytesLen = place.bytesLen) (ops : List SlabOp)
    (s : Callers) (ran : run (Callers.step place) (Callers.start place nodes arena pool) ops = .ok s) :
    Agree place pool s ∧ (∀ addr ∈ s.addrs, ∃ next, s.step place (.kfree addr) = .ok next) ∧
      ∀ size ≤ 1024, (∃ next, s.step place (.kalloc size) = .ok next) ∨
        ∃ halt, Pool.poolAlloc s.kmem.pool 1 = .error halt ∧ s.step place (.kalloc size) = .error halt := by
  have inv : SlabInv place pool s := run_invariant (fun s op next inv _ taken => slabInv_step s op next inv taken)
    (slabInv_start nodes arena start bytesLen) (meets_true _ _ _) ran
  refine ⟨inv.agree, ?_, ?_⟩
  · intro addr held
    obtain ⟨kmem, done, -⟩ := inv.kfree held
    refine ⟨⟨kmem, s.live.filter fun block => block.1 ≠ addr⟩, ?_⟩
    simp only [Callers.step, bind_ok, offer_ok, exists_const, pure_ok, decide_eq_true_eq]
    exact ⟨held, kmem, done, rfl⟩
  · intro size small
    have offered : offer (decide (size ≤ 1024)) = .ok () := by
      rw [offer_ok]
      exact decide_eq_true small
    rcases inv.kalloc small with ⟨halt, empty, failed⟩ | ⟨b, kmem, done, -⟩
    · refine .inr ⟨halt, empty, ?_⟩
      simp only [Callers.step, offered, failed]
      rfl
    · refine .inl ⟨⟨kmem, (b, size) :: s.live⟩, ?_⟩
      simp only [Callers.step, offered, done]
      rfl

def smallPlace : Place where
  kBlockDescs := 0x1000
  start := 0x2000
  bytesLen := 1
  below := by decide
  aligned := by decide
  fits := by decide

def smallPages : MemPool := ⟨0x2000, ⟨1, fun i => decide (i = 0)⟩⟩

/-- Four large blocks need a second page; freeing the one of them there gives that page back. -/
def smallCalls : List SlabOp :=
  [.kalloc 1024, .write 0x3810 ⟨7, 7⟩, .kalloc 600, .kalloc 1000, .kalloc 513, .kfree 0x3410, .kfree 0x4810]

theorem slab_correct_two_pages :
    ∃ s, run (Callers.step smallPlace) (Callers.start smallPlace (fun _ => ⟨0, 0⟩) (fun _ => ⟨0, 0⟩) smallPages)
      smallCalls = .ok s ∧ s.live = [(0x3010, 1000), (0x3810, 1024)] ∧ (s.kmem.arena 0x3000).freeBlockCnt = 1 ∧
      (List.range 4).map s.kmem.pool.poolBitmap.bits = [true, true, false, false] ∧ Agree smallPlace smallPages s := by
  have evaluated : endsIn (run (Callers.step smallPlace) (Callers.start smallPlace (fun _ => ⟨0, 0⟩) (fun _ => ⟨0, 0⟩)
      smallPages) smallCalls) (fun s => decide (s.live = [(0x3010, 1000), (0x3810, 1024)] ∧
        (s.kmem.arena 0x3000).freeBlockCnt = 1 ∧
        (List.range 4).map s.kmem.pool.poolBitmap.bits = [true, true, false, false])) = true := by
    decide +kernel
  obtain ⟨s, ran, check⟩ := exists_of_endsIn evaluated
  obtain ⟨live, count, bits⟩ := of_decide_eq_true check
  exact ⟨s, ran, live, count, bits, (slab_correct smallPlace _ _ smallPages rfl rfl smallCalls s ran).1⟩

end RecoverOs.Memory.Slab
