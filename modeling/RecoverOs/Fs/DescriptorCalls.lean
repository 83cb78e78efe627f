import RecoverOs.Fs.Descriptors

namespace RecoverOs.Fs

open Transition

variable {s after : Files} {t u : Tid} {fd i j : Nat} {p : Ptr} {leaky : Prop}

def pipeSlot (s : Files) (i : Nat) : Files :=
  let page := s.freshPage
  let empty : Ioqueue := { s.ioqueue page with head := 0, tail := 0 }
  { s with
    livePages := page :: s.livePages
    freshPage := page + 1
    ioqueue := Function.update s.ioqueue page empty
    pipes := page :: s.pipes }.setFile i fun _ => { fPos := 2, fInode := some (.ioqueue page), fType := .fifo }

/-- The end of `sys_pipe`, from the search for descriptors on. -/
def pipeFds (s : Files) (t : Tid) (ftIdx page : Nat) : Int × List Nat × Files :=
  let fd0 := freeFdAlloc s t
  if fd0 = maxFilesOpenPerProc then (-(maxFilesOpenPerProc : Int), [fd0], freePage s page)
  else
    let s := s.setFd t fd0 ftIdx (some (.ioqueue page))
    let fd1 := freeFdAlloc s t
    if fd1 = maxFilesOpenPerProc then
      (-(maxFilesOpenPerProc : Int), [fd0, fd1], freePage (s.setFd t fd0 (-1) none) page)
    else (0, [fd0, fd1], s.setFd t fd1 ftIdx (some (.ioqueue page)))

/-- The ways `sys_pipe` ends. -/
inductive PipeEnd (s : Files) (t : Tid) (after : Files) : Prop where
  | full (same : after = { s with livePages := s.freshPage :: s.livePages, freshPage := s.freshPage + 1 })
  | noFd (i : Nat) (slot : i < fileTableSize ∧ (s.fileTable i).fInode = none)
      (same : after.fdTable = s.fdTable ∧ (∀ u gd, s.fdTable u gd ≠ -1 → after.installed u gd = s.installed u gd) ∧
        after = { freePage (pipeSlot s i) s.freshPage with installed := after.installed })
      (none : ∀ fd0 fd1, fd0 < maxFilesOpenPerProc → fd1 < maxFilesOpenPerProc → fd0 ≠ fd1 →
        ¬ (s.fdTable t fd0 = -1 ∧ s.fdTable t fd1 = -1))
  | done (i fd0 fd1 : Nat) (slot : i < fileTableSize ∧ (s.fileTable i).fInode = none)
      (first : fd0 < maxFilesOpenPerProc ∧ s.fdTable t fd0 = -1)
      (second : fd1 < maxFilesOpenPerProc ∧ s.fdTable t fd1 = -1) (differ : fd0 ≠ fd1)
      (same : after = ((pipeSlot s i).setFd t fd0 i (some (.ioqueue s.freshPage))).setFd t fd1 i
        (some (.ioqueue s.freshPage)))

theorem freeFdFrom_full {table : Nat → Int} {i left fd : Nat} (full : freeFdFrom table i left = i + left)
    (low : i ≤ fd) (high : fd < i + left) : table fd ≠ -1 := by
  induction left generalizing i with
  | zero => omega
  | succ left ih =>
    rw [freeFdFrom] at full
    split at full
    · omega
    · rename_i used
      by_cases here : fd = i
      · rw [here]
        exact used
      · exact @ih (i + 1) (by omega) (by omega) (by omega)

theorem freeFdAlloc_full (full : freeFdAlloc s t = maxFilesOpenPerProc) (inside : fd < maxFilesOpenPerProc) :
    s.fdTable t fd ≠ -1 := by
  apply @freeFdFrom_full (s.fdTable t) 0 maxFilesOpenPerProc fd
  · rw [Nat.zero_add]
    exact full
  · exact Nat.zero_le fd
  · rw [Nat.zero_add]
    exact inside

theorem sysPipe_eq (s : Files) (t : Tid) :
    ((∀ slot < fileTableSize, (s.fileTable slot).fInode ≠ none) ∧ sysPipe s t = (-(fileTableSize : Int), [],
      { s with livePages := s.freshPage :: s.livePages, freshPage := s.freshPage + 1 })) ∨
    ∃ i, (i < fileTableSize ∧ (s.fileTable i).fInode = none) ∧
      sysPipe s t = pipeFds (pipeSlot s i) t i s.freshPage := by
  unfold sysPipe
  dsimp only
  rcases slots : getFreeSlot { s with livePages := s.freshPage :: s.livePages, freshPage := s.freshPage + 1 }
    (some (.ioqueue s.freshPage)) .fifo with ⟨i, slotted⟩
  dsimp only
  rcases getFreeSlot_cases slots with ⟨rfl, rfl, full⟩ | ⟨bound, free, same⟩
  · rw [if_pos rfl]
    exact .inl ⟨full, rfl⟩
  · rw [if_neg (Nat.ne_of_lt bound)]
    refine .inr ⟨i, ⟨bound, free⟩, ?_⟩
    have ready : ({ slotted with
        ioqueue := Function.update slotted.ioqueue s.freshPage
          { slotted.ioqueue s.freshPage with head := 0, tail := 0 }
        pipes := s.freshPage :: slotted.pipes } : Files).setFile i (fun file => { file with fPos := 2 }) =
        pipeSlot s i := by
      rw [same]
      simp [pipeSlot, Files.setFile]
    rw [← ready]
    rfl

theorem sysPipe_cases (ran : (sysPipe s t).2.2 = after) : PipeEnd s t after := by
  rcases sysPipe_eq s t with ⟨_, full⟩ | ⟨i, slot, same⟩
  · rw [full] at ran
    exact .full ran.symm
  · rw [same, pipeFds] at ran
    dsimp only at ran
    by_cases noneFree : freeFdAlloc (pipeSlot s i) t = maxFilesOpenPerProc
    · rw [if_pos noneFree] at ran
      subst ran
      refine .noFd i slot ⟨rfl, fun _ _ _ => rfl, rfl⟩ ?_
      intro fd0 fd1 inside _ _ free
      exact freeFdAlloc_full noneFree inside free.1
    · rw [if_neg noneFree] at ran
      have first := freeFdAlloc_spec (pipeSlot s i) t noneFree
      generalize freeFdAlloc (pipeSlot s i) t = fd0 at ran first
      by_cases one : freeFdAlloc ((pipeSlot s i).setFd t fd0 i (some (.ioqueue s.freshPage))) t = maxFilesOpenPerProc
      · rw [if_pos one] at ran
        have table : after.fdTable = s.fdTable := by
          rw [← ran]
          funext u gd
          show ((((pipeSlot s i).setFd t fd0 i (some (.ioqueue s.freshPage))).setFd t fd0 (-1) none).fdTable u gd) = _
          rw [Files.setFd_fdTable, Files.setFd_fdTable]
          split
          · rename_i here
            rw [here.1, here.2]
            exact first.2.symm
          · rfl
        have kept : ∀ u gd, s.fdTable u gd ≠ -1 → after.installed u gd = s.installed u gd := by
          intro u gd used
          have other : ¬ (u = t ∧ gd = fd0) := fun here => used (by rw [here.1, here.2]; exact first.2)
          rw [← ran]
          show ((((pipeSlot s i).setFd t fd0 i (some (.ioqueue s.freshPage))).setFd t fd0 (-1) none).installed u gd) = _
          rw [Files.setFd_installed, if_neg other, Files.setFd_installed, if_neg other]
          rfl
        refine .noFd i slot ⟨table, kept, ?_⟩ ?_
        · have whole : after = { freePage (pipeSlot s i) s.freshPage with
              fdTable := after.fdTable
              installed := after.installed } := by rw [← ran]; rfl
          rw [table] at whole
          exact whole
        · intro gd0 gd1 inside0 inside1 differ free
          have used := @freeFdAlloc_full _ t gd0 one inside0
          have used' := @freeFdAlloc_full _ t gd1 one inside1
          rw [Files.setFd_fdTable] at used used'
          by_cases here : gd0 = fd0
          · rw [if_neg (fun both => differ (here.trans both.2.symm))] at used'
            exact used' free.2
          · rw [if_neg (fun both => here both.2)] at used
            exact used free.1
      · rw [if_neg one] at ran
        have second := freeFdAlloc_spec _ t one
        generalize freeFdAlloc ((pipeSlot s i).setFd t fd0 i (some (.ioqueue s.freshPage))) t = fd1 at ran second
        rw [Files.setFd_fdTable] at second
        have differ : fd1 ≠ fd0 := by
          intro same
          rw [if_pos ⟨rfl, same⟩] at second
          omega
        rw [if_neg (fun both => differ both.2)] at second
        exact .done i fd0 fd1 slot first second differ.symm ran.symm

theorem FdInv.extra_page (inv : FdInv leaky s) :
    FdInv leaky { s with livePages := s.freshPage :: s.livePages, freshPage := s.freshPage + 1 } := by
  have fresh : ∀ page, page ∈ s.livePages ∨ page ∈ s.pipes → page ≠ s.freshPage :=
    fun page member => Nat.ne_of_lt (inv.pageBelow page member)
  refine { inv with pages := ?_, pageNodup := ?_, pageBelow := ?_, held := ?_ }
  · intro i bound page has
    obtain ⟨member, live⟩ := inv.pages i bound page has
    exact ⟨member, fun named => List.mem_cons_of_mem _ (live named)⟩
  · exact List.nodup_cons.mpr ⟨fun member => fresh _ (.inl member) rfl, inv.pageNodup⟩
  · intro page member
    rw [List.mem_cons, or_assoc] at member
    rcases member with rfl | old
    · exact Nat.lt_succ_self s.freshPage
    · exact Nat.lt_succ_of_lt (inv.pageBelow page old)
  · intro page member live
    rcases List.mem_cons.mp live with new | old
    · exact absurd new (fresh page (.inr member))
    · exact inv.held page member old

theorem filled_pipe {fd0 fd1 : Nat} (task : t < s.tasks) (alive : s.exited t = false)
    (first : fd0 < maxFilesOpenPerProc ∧ s.fdTable t fd0 = -1)
    (second : fd1 < maxFilesOpenPerProc ∧ s.fdTable t fd1 = -1) (differ : fd0 ≠ fd1) :
    Filled s (((pipeSlot s i).setFd t fd0 i (some (.ioqueue s.freshPage))).setFd t fd1 i
      (some (.ioqueue s.freshPage))) i { fPos := 2, fInode := some (.ioqueue s.freshPage), fType := .fifo } 2 where
  tasks := rfl
  exited := rfl
  fs := rfl
  slots := fun j => Files.setFile_fileTable _ i j fun _ => _
  fds := by
    intro u gd
    rw [Files.setFd_fdTable, Files.setFd_installed, Files.setFd_fdTable, Files.setFd_installed]
    by_cases here : u = t ∧ gd = fd1
    · rw [if_pos here, if_pos here, here.1, here.2]
      exact .inr ⟨task, alive, second.1, second.2, rfl, rfl⟩
    · rw [if_neg here, if_neg here]
      by_cases here' : u = t ∧ gd = fd0
      · rw [if_pos here', if_pos here', here'.1, here'.2]
        exact .inr ⟨task, alive, first.1, first.2, rfl, rfl⟩
      · rw [if_neg here', if_neg here']
        exact .inl ⟨rfl, rfl⟩
  weight := by
    intro w
    have one := @weigh_setFd (pipeSlot s i) t fd0 i (some (.ioqueue s.freshPage)) w task first.1
    have two := @weigh_setFd ((pipeSlot s i).setFd t fd0 i (some (.ioqueue s.freshPage))) t fd1 i
      (some (.ioqueue s.freshPage)) w task second.1
    have entry : (pipeSlot s i).fdTable t fd0 = -1 := first.2
    rw [entry] at one
    rw [Files.setFd_fdTable, if_neg (fun both => differ both.2.symm)] at two
    have entry' : (pipeSlot s i).fdTable t fd1 = -1 := second.2
    rw [entry'] at two
    have start : weigh (pipeSlot s i) w = weigh s w := weigh_congr rfl fun _ _ _ _ => rfl
    omega

theorem FdInv.lost_slot (inv : FdInv leaky s) (leak : leaky)
    (slot : i < fileTableSize ∧ (s.fileTable i).fInode = none) : FdInv leaky (freePage (pipeSlot s i) s.freshPage) := by
  have fresh : ∀ page, page ∈ s.livePages ∨ page ∈ s.pipes → page ≠ s.freshPage :=
    fun page member => Nat.ne_of_lt (inv.pageBelow page member)
  have live : (freePage (pipeSlot s i) s.freshPage).livePages = s.livePages := List.erase_cons_head ..
  have slots : ∀ j, (freePage (pipeSlot s i) s.freshPage).fileTable j =
      if j = i then { fPos := 2, fInode := some (.ioqueue s.freshPage), fType := .fifo } else s.fileTable j :=
    fun j => Files.setFile_fileTable _ i j fun _ => _
  have count : ∀ j, refs (freePage (pipeSlot s i) s.freshPage) j = refs s j :=
    fun j => refs_congr rfl rfl j
  have unnamed := inv.refs_free slot.2
  constructor
  case healthy => exact inv.healthy
  case idle => exact inv.idle
  case names =>
    intro t fd used
    obtain ⟨j, bound, entry, object, installed⟩ := inv.names t fd used
    have other : j ≠ i := fun here => object (here ▸ slot.2)
    refine ⟨j, bound, entry, ?_, ?_⟩
    · rw [slots, if_neg other]
      exact object
    · rw [slots, if_neg other]
      exact installed
  case fits =>
    intro j bound object has
    rw [slots] at has ⊢
    split at has
    · rename_i here
      cases has
      rw [if_pos here]
      exact ⟨s.freshPage, rfl⟩
    · rename_i other
      rw [if_neg other]
      exact inv.fits j bound object has
  case counts =>
    intro j bound used counted
    rw [slots] at used counted ⊢
    rw [count]
    split at used
    · rename_i here
      rw [here]
      exact .inr ⟨leak, unnamed⟩
    · rename_i other
      rw [if_neg other] at counted ⊢
      exact inv.counts j bound used counted
  case inodes =>
    intro p
    have same : inodeRefs (freePage (pipeSlot s i) s.freshPage) p = inodeRefs s p := by
      apply @inodeRefs_congr s (freePage (pipeSlot s i) s.freshPage) rfl rfl
      intro j named
      have other : j ≠ i := by
        intro here
        rw [here, unnamed] at named
        exact absurd named (Nat.lt_irrefl 0)
      rw [slots, if_neg other]
    rw [same]
    exact inv.inodes p
  case pages =>
    intro j bound page has
    rw [slots] at has
    rw [count, live]
    split at has
    · rename_i here
      cases has
      refine ⟨List.mem_cons_self .., fun named => ?_⟩
      rw [here, unnamed] at named
      exact absurd named (Nat.lt_irrefl 0)
    · obtain ⟨member, alive⟩ := inv.pages j bound page has
      exact ⟨List.mem_cons_of_mem _ member, alive⟩
  case onePage =>
    intro j bound k bound' page left right
    rw [slots] at left right
    split at left
    · rename_i here
      split at right
      · rename_i here'
        rw [here, here']
      · cases left
        exact absurd rfl (fresh _ (.inr (inv.pages k bound' _ right).1))
    · split at right
      · cases right
        exact absurd rfl (fresh _ (.inr (inv.pages j bound _ left).1))
      · exact inv.onePage j bound k bound' page left right
  case pageNodup =>
    rw [live]
    exact inv.pageNodup
  case pageBelow =>
    intro page member
    rw [live] at member
    show page < s.freshPage + 1
    rcases member with old | member
    · exact Nat.lt_succ_of_lt (inv.pageBelow page (.inl old))
    · rcases List.mem_cons.mp member with rfl | old
      · exact Nat.lt_succ_self _
      · exact Nat.lt_succ_of_lt (inv.pageBelow page (.inr old))
  case held =>
    intro page member alive
    rw [live] at alive
    rcases List.mem_cons.mp member with new | old
    · exact absurd new (fresh page (.inl alive))
    · obtain ⟨j, bound, holds⟩ := inv.held page old alive
      have other : j ≠ i := by
        intro here
        rw [here, slot.2] at holds
        cases holds
      exact ⟨j, bound, by rw [slots, if_neg other]; exact holds⟩

theorem FdInv.reinstalled {installed : Tid → Nat → Option Object} (inv : FdInv leaky s)
    (same : ∀ t fd, s.fdTable t fd ≠ -1 → installed t fd = s.installed t fd) :
    FdInv leaky { s with installed := installed } :=
  { inv with
    names := by
      intro t fd used
      obtain ⟨i, bound, entry, object, before⟩ := inv.names t fd used
      exact ⟨i, bound, entry, object, (same t fd used).trans before⟩ }

/-- `sys_pipe` finds no slot, or else finds the two descriptors it needs. -/
def PipeFits (s : Files) (t : Tid) : Prop :=
  (∀ i < fileTableSize, (s.fileTable i).fInode ≠ none) ∨
  ∃ fd0 < maxFilesOpenPerProc, ∃ fd1 < maxFilesOpenPerProc, fd0 ≠ fd1 ∧ s.fdTable t fd0 = -1 ∧ s.fdTable t fd1 = -1

theorem FdInv.sys_pipe (inv : FdInv leaky s) (task : t < s.tasks) (alive : s.exited t = false)
    (fine : leaky ∨ PipeFits s t) (ran : (sysPipe s t).2.2 = after) : FdInv leaky after := by
  have fresh : ∀ page, page ∈ s.livePages ∨ page ∈ s.pipes → page ≠ s.freshPage :=
    fun page member => Nat.ne_of_lt (inv.pageBelow page member)
  cases sysPipe_cases ran with
  | full same =>
    rw [same]
    exact inv.extra_page
  | noFd i slot same none =>
    obtain ⟨table, kept, whole⟩ := same
    rcases fine with leak | full | ⟨fd0, inside0, fd1, inside1, differ, free⟩
    · rw [whole]
      apply (inv.lost_slot leak slot).reinstalled
      exact kept
    · exact absurd slot.2 (full i slot.1)
    · exact absurd free (none fd0 fd1 inside0 inside1 differ)
  | done i fd0 fd1 slot first second differ same =>
    rw [same]
    apply inv.filled (filled_pipe task alive first second differ) slot.1 slot.2 Nat.two_pos rfl ⟨_, rfl⟩
    case count => exact fun _ => rfl
    case room => exact fun p wrong => by cases wrong
    case pageFits =>
      intro page here
      cases here
      exact ⟨List.mem_cons_self .., List.mem_cons_self .., fun member => fresh _ (.inr member) rfl⟩
    case pipes => exact fun page member => List.mem_cons_of_mem _ member
    case live => exact fun page member => List.mem_cons_of_mem _ member
    case pageNodup => exact List.nodup_cons.mpr ⟨fun member => fresh _ (.inl member) rfl, inv.pageNodup⟩
    case pageBelow =>
      intro page member
      show page < s.freshPage + 1
      rcases member with member | member
      · rcases List.mem_cons.mp member with rfl | old
        · exact Nat.lt_succ_self _
        · exact Nat.lt_succ_of_lt (inv.pageBelow page (.inl old))
      · rcases List.mem_cons.mp member with rfl | old
        · exact Nat.lt_succ_self _
        · exact Nat.lt_succ_of_lt (inv.pageBelow page (.inr old))
    case onlyPage =>
      intro page member
      rcases List.mem_cons.mp member with rfl | old
      · exact .inr rfl
      · exact .inl old
    case onlyLive =>
      intro page old member
      rcases List.mem_cons.mp member with new | member
      · exact absurd new (fresh page (.inr old))
      · exact member

def copied (s : Files) (t : Tid) : Files :=
  { s with
    tasks := s.tasks + 1
    exited := Function.update s.exited s.tasks false
    fdTable := Function.update s.fdTable s.tasks (s.fdTable t)
    installed := Function.update s.installed s.tasks (s.installed t) }

def namedBy (table : Nat → Int) (cnt i : Nat) : Nat := ∑ fd ∈ Finset.range cnt, if table fd = (i : Int) then 1 else 0

def inodeNamedBy (s : Files) (table : Nat → Int) (cnt : Nat) (p : Ptr) : Nat :=
  ∑ fd ∈ Finset.range cnt, if 0 ≤ table fd ∧ (s.fileTable (table fd).toNat).fInode = some (.inode p) then 1 else 0

structure Inherited (s after : Files) (table : Nat → Int) (cnt : Nat) : Prop where
  tasks : after.tasks = s.tasks
  exited : after.exited = s.exited
  fdTable : after.fdTable = s.fdTable
  installed : after.installed = s.installed
  pipes : after.pipes = s.pipes
  freshPage : after.freshPage = s.freshPage
  livePages : after.livePages = s.livePages
  fType : ∀ j, (after.fileTable j).fType = (s.fileTable j).fType
  fInode : ∀ j, (after.fileTable j).fInode = (s.fileTable j).fInode
  fPos : ∀ j, (s.fileTable j).fType.counted = true →
    (after.fileTable j).fPos = (s.fileTable j).fPos + namedBy table cnt j
  adds : Adds s.fs after.fs fun p => inodeNamedBy s table cnt p

theorem addOpen_adds {fs : State} (healthy : Healthy fs) (member : p ∈ fs.openInodes) :
    Adds fs (fs.addOpen p) (single p) := by
  have opened : ∀ q, ((fs.addOpen p).inode q).openCnts = (fs.inode q).openCnts + single p q := by
    intro q
    simp only [State.addOpen, State.setInode_inode, single]
    split
    · rename_i here
      rw [here]
    · rw [Int.add_zero]
  refine ⟨⟨addOpen_inv healthy.cache, ?_⟩, ?_⟩
  · intro q inside
    have positive := healthy.counted q inside
    rw [opened, single]
    split <;> omega
  · intro q
    show (if q ∈ fs.openInodes then ((fs.addOpen p).inode q).openCnts else 0) = _
    rw [opened, opens]
    by_cases inside : q ∈ fs.openInodes
    · rw [if_pos inside, if_pos inside]
    · have other : q ≠ p := fun here => inside (here ▸ member)
      rw [if_neg inside, if_neg inside, single, if_neg other, Int.add_zero]

theorem inheritSlot_cases {v : Int} (ran : inheritSlot s v = .ok after) (slot : v = -1 ∨ v = (i : Int)) :
    (v = -1 ∧ after = s) ∨
    (v = (i : Int) ∧ (s.fileTable i).fType.counted = true ∧ ∃ ioqueue, after =
      { s.setFile i fun file => { file with fPos := file.fPos + 1 } with ioqueue := ioqueue }) ∨
    (v = (i : Int) ∧ (s.fileTable i).fType.counted = false ∧ ∃ p, (s.fileTable i).fInode = some (.inode p) ∧
      after = { s with fs := s.fs.addOpen p }) := by
  unfold inheritSlot at ran
  split at ran
  · rename_i unused
    cases ran
    exact .inl ⟨unused, rfl⟩
  · rename_i used
    have here : v = (i : Int) := slot.resolve_left used
    subst here
    right
    dsimp only [Int.toNat_natCast] at ran
    split at ran
    · rename_i _ kind
      cases ran
      exact .inl ⟨rfl, by rw [kind]; rfl, s.ioqueue, rfl⟩
    · rename_i _ page kind _
      cases ran
      exact .inl ⟨rfl, by rw [kind]; rfl, _, rfl⟩
    · rename_i _ p kind has
      cases ran
      exact .inr ⟨rfl, by rw [kind]; rfl, p, has, rfl⟩
    · rename_i _ p kind has
      cases ran
      exact .inr ⟨rfl, by rw [kind]; rfl, p, has, rfl⟩
    · rename_i _ code p kind has
      cases ran
      exact .inr ⟨rfl, by rw [kind]; rfl, p, has, rfl⟩
    · cases ran

theorem Inherited.raise {middle : Files} {table : Nat → Int} {cnt : Nat} (before : Inherited s middle table cnt)
    (entry : table cnt = (i : Int)) (fits : ∀ p, (s.fileTable i).fInode ≠ some (.inode p)) (ioqueue : Nat → Ioqueue) :
    Inherited s { middle.setFile i fun file => { file with fPos := file.fPos + 1 } with ioqueue := ioqueue } table
      (cnt + 1) := by
  have slots : ∀ j, ({ middle.setFile i fun file => { file with fPos := file.fPos + 1 } with
      ioqueue := ioqueue } : Files).fileTable j =
      if j = i then { middle.fileTable i with fPos := (middle.fileTable i).fPos + 1 } else middle.fileTable j :=
    fun j => Files.setFile_fileTable middle i j fun file => { file with fPos := file.fPos + 1 }
  constructor
  case fType =>
    intro j
    rw [slots, ← before.fType j]
    split
    · rename_i here
      rw [here]
    · rfl
  case fInode =>
    intro j
    rw [slots, ← before.fInode j]
    split
    · rename_i here
      rw [here]
    · rfl
  case fPos =>
    intro j counted
    have old := before.fPos j counted
    rw [slots, namedBy, Finset.sum_range_succ _ cnt, ← namedBy, entry]
    by_cases here : j = i
    · subst here
      rw [if_pos rfl, if_pos rfl]
      show (middle.fileTable j).fPos + 1 = _
      omega
    · rw [if_neg here, if_neg (fun same => here (Int.ofNat_inj.mp same).symm), old]
      omega
  case adds =>
    apply before.adds.congr
    intro p
    have other : ¬ (0 ≤ table cnt ∧ (s.fileTable (table cnt).toNat).fInode = some (.inode p)) := by
      rw [entry]
      exact fun both => fits p both.2
    rw [inodeNamedBy, inodeNamedBy, Finset.sum_range_succ _ cnt, if_neg other, Nat.add_zero]
  case tasks => exact before.tasks
  case exited => exact before.exited
  case fdTable => exact before.fdTable
  case installed => exact before.installed
  case pipes => exact before.pipes
  case freshPage => exact before.freshPage
  case livePages => exact before.livePages

theorem Inherited.open_inode {middle : Files} {table : Nat → Int} {cnt : Nat} (before : Inherited s middle table cnt)
    (entry : table cnt = (i : Int)) (plain : (s.fileTable i).fType.counted = false)
    (has : (s.fileTable i).fInode = some (.inode p)) (member : p ∈ s.fs.openInodes) (healthy : Healthy s.fs) :
    Inherited s { middle with fs := middle.fs.addOpen p } table (cnt + 1) := by
  have present : p ∈ middle.fs.openInodes := by
    apply (opens_pos before.adds.healthy).mpr
    have positive := (opens_pos healthy).mp member
    rw [before.adds.opens]
    omega
  constructor
  case fPos =>
    intro j counted
    have other : ¬ (table cnt = (j : Int)) := by
      rw [entry]
      intro same
      rw [← Int.ofNat_inj.mp same, plain] at counted
      cases counted
    rw [namedBy, Finset.sum_range_succ _ cnt, if_neg other, Nat.add_zero]
    exact before.fPos j counted
  case adds =>
    apply (before.adds.trans (addOpen_adds before.adds.healthy present)).congr
    intro q
    rw [inodeNamedBy, inodeNamedBy, Finset.sum_range_succ _ cnt, entry, single, Int.toNat_natCast, has]
    by_cases here : q = p
    · subst here
      rw [if_pos rfl, if_pos ⟨Int.natCast_nonneg i, rfl⟩]
      exact (Int.natCast_add _ 1).symm
    · have other : ¬ ((0 : Int) ≤ i ∧ some (Object.inode p) = some (Object.inode q)) := by
        intro both
        cases both.2
        exact here rfl
      rw [if_neg here, if_neg other, Int.add_zero, Nat.add_zero]
  case tasks => exact before.tasks
  case exited => exact before.exited
  case fdTable => exact before.fdTable
  case installed => exact before.installed
  case pipes => exact before.pipes
  case freshPage => exact before.freshPage
  case livePages => exact before.livePages
  case fType => exact before.fType
  case fInode => exact before.fInode

theorem Inherited.skip {middle : Files} {table : Nat → Int} {cnt : Nat} (before : Inherited s middle table cnt)
    (entry : table cnt = -1) : Inherited s middle table (cnt + 1) := by
  refine { before with fPos := ?_, adds := ?_ }
  · intro j counted
    have other : ¬ (table cnt = (j : Int)) := by omega
    rw [namedBy, Finset.sum_range_succ _ cnt, if_neg other, Nat.add_zero]
    exact before.fPos j counted
  · apply before.adds.congr
    intro p
    have other : ¬ (0 ≤ table cnt ∧ (s.fileTable (table cnt).toNat).fInode = some (.inode p)) := by omega
    rw [inodeNamedBy, inodeNamedBy, Finset.sum_range_succ _ cnt, if_neg other, Nat.add_zero]

theorem inheritSlots_inherited {table : Nat → Int} {cnt : Nat} (healthy : Healthy s.fs)
    (valid : ∀ fd, table fd ≠ -1 → ∃ i < fileTableSize, table fd = (i : Int) ∧
      (∀ p, (s.fileTable i).fInode = some (.inode p) → p ∈ s.fs.openInodes ∧ (s.fileTable i).fType.counted = false))
    (ran : inheritSlots s table cnt = .ok after) : Inherited s after table cnt := by
  induction cnt generalizing after with
  | zero =>
    cases ran
    have none : ∀ p, 0 = (inodeNamedBy s table 0 p : Int) := fun p => rfl
    exact { tasks := rfl, exited := rfl, fdTable := rfl, installed := rfl, pipes := rfl, freshPage := rfl,
            livePages := rfl, fType := fun _ => rfl, fInode := fun _ => rfl, fPos := fun j _ => (Int.add_zero _).symm
            adds := ((SameCache.refl s.fs).adds healthy).congr none }
  | succ cnt ih =>
    simp only [inheritSlots, bind_ok] at ran
    obtain ⟨middle, first, last⟩ := ran
    have before := ih first
    by_cases unused : table cnt = -1
    · rcases @inheritSlot_cases middle after 0 _ last (.inl unused) with ⟨_, rfl⟩ | ⟨used, _⟩ | ⟨used, _⟩
      · exact before.skip unused
      · omega
      · omega
    · obtain ⟨i, _, entry, opened⟩ := valid cnt unused
      rcases inheritSlot_cases last (.inr entry) with ⟨none, _⟩ | ⟨_, counted, ioqueue, rfl⟩ | ⟨_, plain, p, has, rfl⟩
      · exact absurd none unused
      · rw [before.fType] at counted
        apply before.raise entry
        intro p has
        rw [(opened p has).2] at counted
        cases counted
      · rw [before.fType] at plain
        rw [before.fInode] at has
        exact before.open_inode entry plain has (opened p has).1 healthy

theorem sysClone_inherited {result : Int} (inv : FdInv leaky s) (ran : sysClone s t = .ok (result, after)) :
    Inherited (copied s t) after (s.fdTable t) maxFilesOpenPerProc := by
  simp only [sysClone, bind_ok, pure_ok, Prod.mk.injEq] at ran
  obtain ⟨last, inherit, _, rfl⟩ := ran
  rw [Function.update_self] at inherit
  apply @inheritSlots_inherited (copied s t) last (s.fdTable t) maxFilesOpenPerProc inv.healthy _ inherit
  intro fd used
  obtain ⟨_, _, _, i, bound, entry, _, _⟩ := inv.entry used
  refine ⟨i, bound, entry, ?_⟩
  intro p has
  exact ⟨inv.inode_open used entry has, FileType.uncounted (inv.fits i bound (.inode p) has)⟩

theorem FdInv.sys_clone {result : Int} (inv : FdInv leaky s) (task : t < s.tasks)
    (ran : sysClone s t = .ok (result, after)) : FdInv leaky after := by
  have inherited := sysClone_inherited inv ran
  have tasks : after.tasks = s.tasks + 1 := inherited.tasks
  have child : after.fdTable s.tasks = s.fdTable t := by
    rw [inherited.fdTable]
    exact Function.update_self ..
  have others : ∀ u, u ≠ s.tasks → after.fdTable u = s.fdTable u ∧ after.installed u = s.installed u := by
    intro u other
    rw [inherited.fdTable, inherited.installed]
    exact ⟨Function.update_of_ne other .., Function.update_of_ne other ..⟩
  have newInstalled : after.installed s.tasks = s.installed t := by
    rw [inherited.installed]
    exact Function.update_self ..
  have below : ∀ u < s.tasks, after.fdTable u = s.fdTable u := fun u less => (others u (Nat.ne_of_lt less)).1
  have count : ∀ i, refs after i = refs s i + namedBy (s.fdTable t) maxFilesOpenPerProc i :=
    fun i => weigh_clone _ tasks child below
  have fInode : ∀ i, (after.fileTable i).fInode = (s.fileTable i).fInode := inherited.fInode
  have fType : ∀ i, (after.fileTable i).fType = (s.fileTable i).fType := inherited.fType
  have namedPos : ∀ i, 0 < refs after i → 0 < refs s i := by
    intro i positive
    obtain ⟨u, fd, _, inside, entry⟩ := refs_pos.mp positive
    by_cases new : u = s.tasks
    · rw [new, child] at entry
      exact refs_pos.mpr ⟨t, fd, task, inside, entry⟩
    · have used : s.fdTable u fd ≠ -1 := by
        rw [← (others u new).1, entry]
        omega
      rw [(others u new).1] at entry
      exact refs_pos.mpr ⟨u, fd, (inv.entry used).1, inside, entry⟩
  constructor
  case healthy => exact inherited.adds.healthy
  case idle =>
    intro u fd unused
    by_cases new : u = s.tasks
    · rw [new, child]
      rcases unused with high | gone | high
      · rw [tasks, new] at high
        exact absurd high (Nat.not_le.mpr (Nat.lt_succ_self _))
      · rw [inherited.exited, new] at gone
        have born : (copied s t).exited s.tasks = false := Function.update_self ..
        rw [born] at gone
        cases gone
      · exact inv.idle t fd (.inr (.inr high))
    · rw [(others u new).1]
      apply inv.idle
      rcases unused with high | gone | high
      · rw [tasks] at high
        exact .inl (Nat.le_of_succ_le high)
      · rw [inherited.exited] at gone
        have same : (copied s t).exited u = s.exited u := Function.update_of_ne new ..
        rw [same] at gone
        exact .inr (.inl gone)
      · exact .inr (.inr high)
  case names =>
    intro u fd used
    by_cases new : u = s.tasks
    · rw [new, child] at used ⊢
      rw [newInstalled]
      obtain ⟨i, bound, entry, object, before⟩ := inv.names t fd used
      exact ⟨i, bound, entry, by rw [fInode]; exact object, by rw [fInode]; exact before⟩
    · rw [(others u new).1] at used ⊢
      rw [(others u new).2]
      obtain ⟨i, bound, entry, object, before⟩ := inv.names u fd used
      exact ⟨i, bound, entry, by rw [fInode]; exact object, by rw [fInode]; exact before⟩
  case fits =>
    intro i bound object has
    rw [fInode] at has
    rw [fType]
    exact inv.fits i bound object has
  case counts =>
    intro i bound used counted
    rw [fInode] at used
    rw [fType] at counted
    have more : (after.fileTable i).fPos = (s.fileTable i).fPos + namedBy (s.fdTable t) maxFilesOpenPerProc i :=
      inherited.fPos i counted
    rcases inv.counts i bound used counted with ⟨exact, positive⟩ | ⟨leak, zero⟩
    · left
      rw [more, exact, count]
      omega
    · right
      refine ⟨leak, ?_⟩
      by_contra some
      have positive := namedPos i (Nat.pos_of_ne_zero some)
      omega
  case inodes =>
    intro p
    have more : opens after.fs p = opens s.fs p + inodeNamedBy s (s.fdTable t) maxFilesOpenPerProc p :=
      inherited.adds.opens p
    have total : inodeRefs after p = inodeRefs s p + inodeNamedBy s (s.fdTable t) maxFilesOpenPerProc p := by
      have same : inodeRefs after p =
          weigh after fun v => if 0 ≤ v ∧ (s.fileTable v.toNat).fInode = some (.inode p) then 1 else 0 := by
        apply weigh_congr rfl
        intro u fd _ _
        rw [fInode]
      rw [same, weigh_clone _ tasks child below]
      rfl
    have before := inv.inodes p
    rw [more, total]
    omega
  case pages =>
    intro i bound page has
    rw [fInode] at has
    rw [inherited.pipes, inherited.livePages]
    obtain ⟨member, live⟩ := inv.pages i bound page has
    exact ⟨member, fun named => live (namedPos i named)⟩
  case onePage =>
    intro i bound j bound' page left right
    rw [fInode] at left right
    exact inv.onePage i bound j bound' page left right
  case pageNodup =>
    rw [inherited.livePages]
    exact inv.pageNodup
  case pageBelow =>
    intro page member
    rw [inherited.livePages, inherited.pipes] at member
    rw [inherited.freshPage]
    exact inv.pageBelow page member
  case held =>
    intro page member live
    rw [inherited.pipes] at member
    rw [inherited.livePages] at live
    obtain ⟨i, bound, holds⟩ := inv.held page member live
    exact ⟨i, bound, by rw [fInode]; exact holds⟩

theorem Dropped.mayClose {gd : Nat} (dropped : Dropped s after t fd i) (inv : FdInv leaky s)
    (used : s.fdTable t fd ≠ -1) (entry : s.fdTable t fd = (i : Int)) (may : MayClose s t gd) :
    MayClose after t gd := by
  obtain ⟨task, _, inside, _⟩ := inv.entry used
  intro valid plain
  rw [dropped.fdTable, Files.setFd_fdTable] at valid plain ⊢
  by_cases here : t = t ∧ gd = fd
  · rw [if_pos here] at valid
    exact absurd valid (by decide)
  · rw [if_neg here] at valid plain ⊢
    rw [dropped.types] at plain
    have before := may valid plain
    have count := dropped.refs task inside entry (s.fdTable t gd).toNat
    omega

theorem fdAccepted {i : Nat} (inside : fd < maxFilesOpenPerProc) (bound : i < fileTableSize)
    (entry : s.fdTable t fd = (i : Int)) : fdRejected s t fd = false := by
  have valid : fdEntry s t fd = (i : Int) := by
    rw [fdEntry, if_pos ⟨Int.natCast_nonneg fd, by exact_mod_cast inside⟩]
    exact entry
  simp only [fdRejected, valid, Bool.or_eq_false_iff, decide_eq_false_iff_not]
  omega

theorem FdInv.release {cnt : Nat} (inv : FdInv leaky s) (bound : cnt ≤ maxFilesOpenPerProc)
    (may : ∀ fd < maxFilesOpenPerProc, MayClose s t fd) (ran : releaseFds s t cnt = .ok after) :
    FdInv leaky after ∧ (∀ fd < maxFilesOpenPerProc, MayClose after t fd) ∧ (∀ fd < cnt, after.fdTable t fd = -1) ∧
      ∀ i object, (after.fileTable i).fInode = some object →
        (s.fileTable i).fInode = some object ∧ (after.fileTable i).fType = (s.fileTable i).fType := by
  induction cnt generalizing after with
  | zero =>
    cases ran
    exact ⟨inv, may, fun fd less => absurd less (Nat.not_lt_zero fd), fun i object has => ⟨has, rfl⟩⟩
  | succ cnt ih =>
    simp only [releaseFds, bind_ok] at ran
    obtain ⟨middle, first, last⟩ := ran
    obtain ⟨middleInv, middleMay, closed, objects⟩ := ih (by omega) first
    split at last
    · rename_i used
      simp only [bind_ok, pure_ok, Prod.exists] at last
      obtain ⟨result, _, close, rfl⟩ := last
      rcases sysClose_dropped middleInv (middleMay cnt bound) close with ⟨rejected, _⟩ | ⟨i, entry, _, dropped⟩
      · obtain ⟨_, _, inside, i, small, entry, _⟩ := middleInv.entry used
        rw [fdAccepted inside small entry] at rejected
        cases rejected
      · refine ⟨middleInv.dropped used entry dropped, ?_, ?_, ?_⟩
        · exact fun fd inside => dropped.mayClose middleInv used entry (middleMay fd inside)
        · intro fd less
          rw [dropped.fdTable, Files.setFd_fdTable]
          by_cases here : fd = cnt
          · rw [if_pos ⟨rfl, here⟩]
          · rw [if_neg (fun both => here both.2)]
            exact closed fd (by omega)
        · intro j object has
          obtain ⟨before, type⟩ := objects j object (dropped.objects j object has)
          exact ⟨before, (dropped.types j).trans type⟩
    · rename_i unused
      cases last
      refine ⟨middleInv, middleMay, ?_, objects⟩
      intro fd less
      by_cases here : fd = cnt
      · rw [here]
        exact not_not.mp unused
      · exact closed fd (by omega)

theorem FdInv.sys_exit (inv : FdInv leaky s) (may : ∀ fd < maxFilesOpenPerProc, MayClose s t fd)
    (ran : sysExit s t = .ok after) : FdInv leaky after := by
  simp only [sysExit, bind_ok, pure_ok] at ran
  obtain ⟨_, _, released, release, rfl⟩ := ran
  obtain ⟨releasedInv, _, closed, _⟩ := inv.release (Nat.le_refl _) may release
  refine { releasedInv with idle := ?_ }
  intro u fd unused
  by_cases here : u = t
  · subst here
    by_cases inside : fd < maxFilesOpenPerProc
    · exact closed fd inside
    · exact releasedInv.idle u fd (.inr (.inr (Nat.not_lt.mp inside)))
  · apply releasedInv.idle u fd
    dsimp only at unused
    rw [Function.update_of_ne here] at unused
    exact unused

theorem FdInv.sys_dup2 {oldfd newfd : Nat} {result : Int} (inv : FdInv leaky s)
    (same : s.fdTable t oldfd = s.fdTable t newfd) (ran : sysDup2 s t oldfd newfd = .ok (result, after)) :
    FdInv leaky after ∧ after.fileTable = s.fileTable := by
  unfold sysDup2 at ran
  split at ran
  · cases ran
    have table : (s.setFd t oldfd (s.fdTable t newfd) (s.installed t newfd)).fdTable = s.fdTable := by
      funext u gd
      rw [Files.setFd_fdTable]
      split
      · rename_i here
        rw [here.1, here.2, same]
      · rfl
    have kept : ∀ u gd, s.fdTable u gd ≠ -1 →
        (s.setFd t oldfd (s.fdTable t newfd) (s.installed t newfd)).installed u gd = s.installed u gd := by
      intro u gd used
      rw [Files.setFd_installed]
      split
      · rename_i here
        rw [here.1, here.2] at used ⊢
        obtain ⟨i, _, entry, _, installed⟩ := inv.names t oldfd used
        obtain ⟨j, _, entry', _, installed'⟩ := inv.names t newfd (same ▸ used)
        have slot : i = j := Int.ofNat_inj.mp (entry.symm.trans (same.trans entry'))
        rw [installed, installed', slot]
      · rfl
    generalize changed : s.setFd t oldfd (s.fdTable t newfd) (s.installed t newfd) = last at table kept
    have whole : last = { s with fdTable := last.fdTable, installed := last.installed } := by
      rw [← changed]
      rfl
    rw [table] at whole
    rw [whole]
    exact ⟨inv.reinstalled kept, rfl⟩
  · cases ran

end RecoverOs.Fs
