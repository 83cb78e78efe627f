import RecoverOs.Fs.File
import RecoverOs.Fs.OpenCounts
import RecoverOs.Logic.Counting

namespace RecoverOs.Fs

open Transition

variable {s after : Files} {t u : Tid} {fd i j : Nat} {p : Ptr}

def weigh (s : Files) (w : Int → Nat) : Nat :=
  ∑ x ∈ Finset.range s.tasks ×ˢ Finset.range maxFilesOpenPerProc, w (s.fdTable x.1 x.2)

/-- The number of descriptors that name slot `i`. -/
def refs (s : Files) (i : Nat) : Nat := weigh s fun v => if v = (i : Int) then 1 else 0

def inodeRefs (s : Files) (p : Ptr) : Nat :=
  weigh s fun v => if 0 ≤ v ∧ (s.fileTable v.toNat).fInode = some (.inode p) then 1 else 0

@[simp] theorem Files.setFile_fileTable (s : Files) (i j : Nat) (f : File → File) :
    (s.setFile i f).fileTable j = if j = i then f (s.fileTable i) else s.fileTable j := by
  simp [Files.setFile, Function.update_apply]

@[simp] theorem Files.setFd_fdTable (s : Files) (t u : Tid) (fd gd : Nat) (v : Int) (object : Option Object) :
    (s.setFd t fd v object).fdTable u gd = if u = t ∧ gd = fd then v else s.fdTable u gd := by
  by_cases task : u = t
  · subst task
    simp [Files.setFd, Function.update_apply]
  · simp [Files.setFd, task]

@[simp] theorem Files.setFd_installed (s : Files) (t u : Tid) (fd gd : Nat) (v : Int) (object : Option Object) :
    (s.setFd t fd v object).installed u gd = if u = t ∧ gd = fd then object else s.installed u gd := by
  by_cases task : u = t
  · subst task
    simp [Files.setFd, Function.update_apply]
  · simp [Files.setFd, task]

theorem weigh_congr {w w' : Int → Nat} (tasks : after.tasks = s.tasks)
    (same : ∀ t fd, t < s.tasks → fd < maxFilesOpenPerProc → w' (after.fdTable t fd) = w (s.fdTable t fd)) :
    weigh after w' = weigh s w := by
  rw [weigh, weigh, tasks]
  apply Finset.sum_congr rfl
  intro x inside
  rw [Finset.mem_product, Finset.mem_range, Finset.mem_range] at inside
  exact same x.1 x.2 inside.1 inside.2

theorem weigh_setFd {v : Int} {object : Option Object} (w : Int → Nat) (task : t < s.tasks)
    (inside : fd < maxFilesOpenPerProc) :
    weigh (s.setFd t fd v object) w + w (s.fdTable t fd) = weigh s w + w v := by
  have member : (t, fd) ∈ Finset.range s.tasks ×ˢ Finset.range maxFilesOpenPerProc := by
    rw [Finset.mem_product, Finset.mem_range, Finset.mem_range]
    exact ⟨task, inside⟩
  have moved := Counting.sum_of_change (Finset.range s.tasks ×ˢ Finset.range maxFilesOpenPerProc)
    (fun x => w (s.fdTable x.1 x.2)) (fun x => w ((s.setFd t fd v object).fdTable x.1 x.2)) member (by
      intro x _ other
      have differs : ¬ (x.1 = t ∧ x.2 = fd) := fun same => other (Prod.ext same.1 same.2)
      simp only [Files.setFd_fdTable, if_neg differs])
  simp only [Files.setFd_fdTable, and_self, if_true] at moved
  simp only [weigh, Files.setFd_fdTable]
  exact moved

theorem weigh_clone (w : Int → Nat) (tasks : after.tasks = s.tasks + 1)
    (child : after.fdTable s.tasks = s.fdTable t) (others : ∀ u < s.tasks, after.fdTable u = s.fdTable u) :
    weigh after w = weigh s w + ∑ fd ∈ Finset.range maxFilesOpenPerProc, w (s.fdTable t fd) := by
  rw [weigh, weigh, tasks, Finset.sum_product, Finset.sum_product, Finset.sum_range_succ _ s.tasks]
  dsimp only
  rw [child, Nat.add_right_cancel_iff]
  apply Finset.sum_congr rfl
  intro u inside
  rw [others u (Finset.mem_range.mp inside)]

theorem weigh_pos {w : Int → Nat} : 0 < weigh s w ↔
    ∃ t fd, t < s.tasks ∧ fd < maxFilesOpenPerProc ∧ 0 < w (s.fdTable t fd) := by
  rw [weigh, Nat.pos_iff_ne_zero, Ne, Finset.sum_eq_zero_iff]
  constructor
  · intro some
    by_contra none
    apply some
    intro x inside
    rw [Finset.mem_product, Finset.mem_range, Finset.mem_range] at inside
    by_contra positive
    exact none ⟨x.1, x.2, inside.1, inside.2, Nat.pos_of_ne_zero positive⟩
  · intro ⟨t, fd, task, inside, positive⟩ zero
    have member : (t, fd) ∈ Finset.range s.tasks ×ˢ Finset.range maxFilesOpenPerProc := by
      rw [Finset.mem_product, Finset.mem_range, Finset.mem_range]
      exact ⟨task, inside⟩
    exact absurd (zero (t, fd) member) (Nat.ne_of_gt positive)

theorem refs_congr (tasks : after.tasks = s.tasks) (fds : after.fdTable = s.fdTable) (i : Nat) :
    refs after i = refs s i := by
  apply weigh_congr tasks
  intro t fd _ _
  rw [fds]

theorem refs_pos : 0 < refs s i ↔ ∃ t fd, t < s.tasks ∧ fd < maxFilesOpenPerProc ∧ s.fdTable t fd = (i : Int) := by
  rw [refs, weigh_pos]
  constructor
  · intro ⟨t, fd, task, inside, positive⟩
    refine ⟨t, fd, task, inside, ?_⟩
    by_contra other
    rw [if_neg other] at positive
    exact absurd positive (Nat.lt_irrefl 0)
  · intro ⟨t, fd, task, inside, names⟩
    exact ⟨t, fd, task, inside, by rw [if_pos names]; exact Nat.one_pos⟩

theorem freeSlotFrom_spec (table : Nat → File) (i left : Nat) : freeSlotFrom table i left ≤ i + left ∧
    (freeSlotFrom table i left < i + left → (table (freeSlotFrom table i left)).fInode = none) := by
  induction left generalizing i with
  | zero => exact ⟨Nat.le_refl _, fun less => absurd less (Nat.lt_irrefl _)⟩
  | succ left ih =>
    rw [freeSlotFrom]
    split
    · rename_i free
      exact ⟨by omega, fun _ => free⟩
    · obtain ⟨bound, free⟩ := ih (i + 1)
      exact ⟨by omega, fun less => free (by omega)⟩

theorem freeSlotFrom_full {table : Nat → File} {i left slot : Nat} (full : freeSlotFrom table i left = i + left)
    (low : i ≤ slot) (high : slot < i + left) : (table slot).fInode ≠ none := by
  induction left generalizing i with
  | zero => omega
  | succ left ih =>
    rw [freeSlotFrom] at full
    split at full
    · omega
    · rename_i used
      by_cases here : slot = i
      · rw [here]
        exact used
      · exact @ih (i + 1) (by omega) (by omega) (by omega)

theorem freeFdFrom_spec (table : Nat → Int) (i left : Nat) : freeFdFrom table i left ≤ i + left ∧
    (freeFdFrom table i left < i + left → table (freeFdFrom table i left) = -1) := by
  induction left generalizing i with
  | zero => exact ⟨Nat.le_refl _, fun less => absurd less (Nat.lt_irrefl _)⟩
  | succ left ih =>
    rw [freeFdFrom]
    split
    · rename_i free
      exact ⟨by omega, fun _ => free⟩
    · obtain ⟨bound, free⟩ := ih (i + 1)
      exact ⟨by omega, fun less => free (by omega)⟩

theorem freeFdAlloc_spec (s : Files) (t : Tid) (some : freeFdAlloc s t ≠ maxFilesOpenPerProc) :
    freeFdAlloc s t < maxFilesOpenPerProc ∧ s.fdTable t (freeFdAlloc s t) = -1 := by
  have spec := freeFdFrom_spec (s.fdTable t) 0 maxFilesOpenPerProc
  rw [Nat.zero_add] at spec
  have less : freeFdAlloc s t < maxFilesOpenPerProc := Nat.lt_of_le_of_ne spec.1 some
  exact ⟨less, spec.2 less⟩

theorem getFreeSlot_cases {object : Option Object} {type : FileType}
    (ran : getFreeSlot s object type = (i, after)) :
    (i = fileTableSize ∧ after = s ∧ ∀ slot < fileTableSize, (s.fileTable slot).fInode ≠ none) ∨
    (i < fileTableSize ∧ (s.fileTable i).fInode = none ∧
      after = s.setFile i fun _ => { fPos := 0, fInode := object, fType := type }) := by
  have spec := freeSlotFrom_spec s.fileTable 0 fileTableSize
  rw [Nat.zero_add] at spec
  unfold getFreeSlot at ran
  dsimp only at ran
  split at ran
  · rename_i some
    cases ran
    have less := Nat.lt_of_le_of_ne spec.1 some
    exact .inr ⟨less, spec.2 less, rfl⟩
  · rename_i full
    cases ran
    have whole : freeSlotFrom s.fileTable 0 fileTableSize = fileTableSize := by simpa using full
    refine .inl ⟨whole, rfl, ?_⟩
    intro slot bound
    apply @freeSlotFrom_full s.fileTable 0 fileTableSize slot
    · rw [Nat.zero_add]
      exact whole
    · exact Nat.zero_le slot
    · rw [Nat.zero_add]
      exact bound

def FileType.Fits : FileType → Object → Prop
  | .chr, object => object = .console
  | .fifo, object => ∃ page, object = .ioqueue page
  | _, object => ∃ p, object = .inode p

/-- Character devices and pipes count their descriptors in `f_pos`. -/
def FileType.counted : FileType → Bool
  | .chr | .fifo => true
  | _ => false

theorem FileType.uncounted {type : FileType} (fits : type.Fits (.inode p)) : type.counted = false := by
  cases type with
  | chr => cases fits
  | fifo =>
    obtain ⟨page, same⟩ := fits
    cases same
  | dir => rfl
  | reg => rfl
  | other code => rfl

/-- `leaky` allows slots that a failed `sys_pipe` has left behind. -/
structure FdInv (leaky : Prop) (s : Files) : Prop where
  healthy : Healthy s.fs
  idle : ∀ t fd, s.tasks ≤ t ∨ s.exited t = true ∨ maxFilesOpenPerProc ≤ fd → s.fdTable t fd = -1
  names : ∀ t fd, s.fdTable t fd ≠ -1 → ∃ i < fileTableSize, s.fdTable t fd = (i : Int) ∧
    (s.fileTable i).fInode ≠ none ∧ s.installed t fd = (s.fileTable i).fInode
  fits : ∀ i < fileTableSize, ∀ object, (s.fileTable i).fInode = some object → (s.fileTable i).fType.Fits object
  counts : ∀ i < fileTableSize, (s.fileTable i).fInode ≠ none → (s.fileTable i).fType.counted = true →
    ((s.fileTable i).fPos = refs s i ∧ 0 < refs s i) ∨ (leaky ∧ refs s i = 0)
  inodes : ∀ p, (inodeRefs s p : Int) ≤ opens s.fs p
  pages : ∀ i < fileTableSize, ∀ page, (s.fileTable i).fInode = some (.ioqueue page) →
    page ∈ s.pipes ∧ (0 < refs s i → page ∈ s.livePages)
  onePage : ∀ i < fileTableSize, ∀ j < fileTableSize, ∀ page, (s.fileTable i).fInode = some (.ioqueue page) →
    (s.fileTable j).fInode = some (.ioqueue page) → i = j
  pageNodup : s.livePages.Nodup
  pageBelow : ∀ page, page ∈ s.livePages ∨ page ∈ s.pipes → page < s.freshPage
  held : ∀ page ∈ s.pipes, page ∈ s.livePages → ∃ i < fileTableSize, (s.fileTable i).fInode = some (.ioqueue page)

variable {leaky : Prop}

theorem FdInv.refs_free (inv : FdInv leaky s) (free : (s.fileTable i).fInode = none) : refs s i = 0 := by
  by_contra some
  obtain ⟨t, fd, _, _, entry⟩ := refs_pos.mp (Nat.pos_of_ne_zero some)
  obtain ⟨j, _, same, used, _⟩ := inv.names t fd (by rw [entry]; omega)
  have here : j = i := by
    rw [entry] at same
    exact (Int.ofNat_inj.mp same).symm
  exact used (here ▸ free)

theorem inodeRefs_congr (tasks : after.tasks = s.tasks) (fds : after.fdTable = s.fdTable)
    (slots : ∀ i, 0 < refs s i → (after.fileTable i).fInode = (s.fileTable i).fInode) (p : Ptr) :
    inodeRefs after p = inodeRefs s p := by
  apply weigh_congr tasks
  intro t fd task inside
  rw [fds]
  by_cases valid : 0 ≤ s.fdTable t fd
  · have entry : s.fdTable t fd = ((s.fdTable t fd).toNat : Int) := (Int.toNat_of_nonneg valid).symm
    rw [slots _ (refs_pos.mpr ⟨t, fd, task, inside, entry⟩)]
  · rw [if_neg (fun both => valid both.1), if_neg (fun both => valid both.1)]

theorem FdInv.withFs {fs : State} (inv : FdInv leaky s) (gains : Gains s.fs fs) : FdInv leaky { s with fs := fs } :=
  { inv with
    healthy := gains.healthy
    inodes := fun p => le_trans (inv.inodes p) (gains.opens p) }

theorem FdInv.entry (inv : FdInv leaky s) (used : s.fdTable t fd ≠ -1) : t < s.tasks ∧ s.exited t = false ∧
    fd < maxFilesOpenPerProc ∧ ∃ i < fileTableSize, s.fdTable t fd = (i : Int) ∧ 0 < refs s i ∧
      (s.fileTable i).fInode ≠ none := by
  have task : t < s.tasks := by
    by_contra high
    exact used (inv.idle t fd (.inl (Nat.not_lt.mp high)))
  have alive : s.exited t = false := by
    by_contra gone
    exact used (inv.idle t fd (.inr (.inl (by simpa using gone))))
  have inside : fd < maxFilesOpenPerProc := by
    by_contra high
    exact used (inv.idle t fd (.inr (.inr (Nat.not_lt.mp high))))
  obtain ⟨i, bound, entry, object, _⟩ := inv.names t fd used
  exact ⟨task, alive, inside, i, bound, entry, refs_pos.mpr ⟨t, fd, task, inside, entry⟩, object⟩

structure Filled (s after : Files) (i : Nat) (file : File) (n : Nat) : Prop where
  tasks : after.tasks = s.tasks
  exited : after.exited = s.exited
  fs : after.fs = s.fs
  slots : ∀ j, after.fileTable j = if j = i then file else s.fileTable j
  fds : ∀ t fd, (after.fdTable t fd = s.fdTable t fd ∧ after.installed t fd = s.installed t fd) ∨
    (t < s.tasks ∧ s.exited t = false ∧ fd < maxFilesOpenPerProc ∧ s.fdTable t fd = -1 ∧
      after.fdTable t fd = (i : Int) ∧ after.installed t fd = file.fInode)
  weight : ∀ w : Int → Nat, weigh after w + n * w (-1) = weigh s w + n * w i

theorem Filled.refs {file : File} {n : Nat} (filled : Filled s after i file n) (j : Nat) :
    refs after j = refs s j + if j = i then n else 0 := by
  have moved := filled.weight fun v => if v = (j : Int) then 1 else 0
  have none : ¬ ((-1 : Int) = (j : Int)) := by omega
  rw [if_neg none, Nat.mul_zero, Nat.add_zero] at moved
  rw [Fs.refs, moved, Fs.refs]
  by_cases here : j = i
  · rw [if_pos here, if_pos (by rw [here]), Nat.mul_one]
  · rw [if_neg here, if_neg (fun same => here (Int.ofNat_inj.mp same).symm), Nat.mul_zero]

theorem Filled.inodeRefs {file : File} {n : Nat} (filled : Filled s after i file n) (inv : FdInv leaky s)
    (free : (s.fileTable i).fInode = none) (p : Ptr) :
    inodeRefs after p = inodeRefs s p + if file.fInode = some (.inode p) then n else 0 := by
  have moved := filled.weight fun v => if 0 ≤ v ∧ (after.fileTable v.toNat).fInode = some (.inode p) then 1 else 0
  have negative : ¬ ((0 : Int) ≤ -1 ∧ (after.fileTable (-1 : Int).toNat).fInode = some (.inode p)) := by omega
  rw [if_neg negative, Nat.mul_zero, Nat.add_zero] at moved
  have before : weigh s (fun v => if 0 ≤ v ∧ (after.fileTable v.toNat).fInode = some (.inode p) then 1 else 0) =
      Fs.inodeRefs s p := by
    apply weigh_congr rfl
    intro t fd task inside
    by_cases valid : 0 ≤ s.fdTable t fd
    · have entry : s.fdTable t fd = ((s.fdTable t fd).toNat : Int) := (Int.toNat_of_nonneg valid).symm
      have other : (s.fdTable t fd).toNat ≠ i := by
        intro here
        have positive := refs_pos.mpr ⟨t, fd, task, inside, entry⟩
        rw [here, inv.refs_free free] at positive
        exact absurd positive (Nat.lt_irrefl 0)
      rw [filled.slots, if_neg other]
    · rw [if_neg (fun both => valid both.1), if_neg (fun both => valid both.1)]
  rw [Fs.inodeRefs, moved, before, filled.slots]
  have index : (i : Int).toNat = i := rfl
  have valid : (0 : Int) ≤ i := Int.natCast_nonneg i
  by_cases object : file.fInode = some (.inode p)
  · simp [index, object]
  · simp [index, object]

theorem FdInv.filled {file : File} {object : Object} {n : Nat} (inv : FdInv leaky s)
    (filled : Filled s after i file n) (bound : i < fileTableSize) (free : (s.fileTable i).fInode = none)
    (several : 0 < n) (has : file.fInode = some object) (fits : file.fType.Fits object)
    (count : file.fType.counted = true → file.fPos = n)
    (room : ∀ p, object = .inode p → (inodeRefs s p : Int) + n ≤ opens s.fs p)
    (pageFits : ∀ page, object = .ioqueue page → page ∈ after.pipes ∧ page ∈ after.livePages ∧ page ∉ s.pipes)
    (pipes : ∀ page, page ∈ s.pipes → page ∈ after.pipes) (live : ∀ page, page ∈ s.livePages → page ∈ after.livePages)
    (pageNodup : after.livePages.Nodup)
    (pageBelow : ∀ page, page ∈ after.livePages ∨ page ∈ after.pipes → page < after.freshPage)
    (onlyPage : ∀ page ∈ after.pipes, page ∈ s.pipes ∨ object = .ioqueue page)
    (onlyLive : ∀ page ∈ s.pipes, page ∈ after.livePages → page ∈ s.livePages) : FdInv leaky after := by
  have none : Fs.refs s i = 0 := inv.refs_free free
  constructor
  case healthy => rw [filled.fs]; exact inv.healthy
  case idle =>
    intro t fd unused
    rw [filled.tasks, filled.exited] at unused
    rcases filled.fds t fd with ⟨same, _⟩ | ⟨task, alive, inside, _⟩
    · rw [same]
      exact inv.idle t fd unused
    · rcases unused with high | gone | high
      · exact absurd task (Nat.not_lt.mpr high)
      · rw [alive] at gone
        cases gone
      · exact absurd inside (Nat.not_lt.mpr high)
  case names =>
    intro t fd used
    rcases filled.fds t fd with ⟨same, installed⟩ | ⟨_, _, _, _, entry, installed⟩
    · rw [same] at used
      obtain ⟨j, inside, entry, object, before⟩ := inv.names t fd used
      have other : j ≠ i := fun here => object (here ▸ free)
      refine ⟨j, inside, same.trans entry, ?_, ?_⟩
      · rw [filled.slots, if_neg other]
        exact object
      · rw [filled.slots, if_neg other, installed]
        exact before
    · refine ⟨i, bound, entry, ?_, ?_⟩
      · rw [filled.slots, if_pos rfl, has]
        exact Option.some_ne_none _
      · rw [filled.slots, if_pos rfl, installed]
  case fits =>
    intro j inside other
    rw [filled.slots]
    split
    · intro same
      rw [has] at same
      cases same
      exact fits
    · exact inv.fits j inside other
  case counts =>
    intro j inside
    rw [filled.slots, filled.refs]
    split
    · rename_i here
      intro _ counted
      left
      rw [here, none, count counted]
      constructor
      · omega
      · omega
    · intro used counted
      rw [Nat.add_zero]
      exact inv.counts j inside used counted
  case inodes =>
    intro p
    rw [filled.inodeRefs inv free, filled.fs]
    split
    · rename_i here
      rw [has] at here
      cases here
      exact_mod_cast room p rfl
    · exact inv.inodes p
  case pages =>
    intro j inside page
    rw [filled.slots, filled.refs]
    split
    · intro here
      rw [has] at here
      cases here
      exact ⟨(pageFits page rfl).1, fun _ => (pageFits page rfl).2.1⟩
    · intro here
      obtain ⟨member, alive⟩ := inv.pages j inside page here
      rw [Nat.add_zero]
      exact ⟨pipes page member, fun positive => live page (alive positive)⟩
  case onePage =>
    intro j inside k inside' page
    rw [filled.slots, filled.slots]
    split
    · rename_i left
      split
      · rename_i right
        intro _ _
        rw [left, right]
      · intro new old
        rw [has] at new
        cases new
        exact absurd (inv.pages k inside' page old).1 (pageFits page rfl).2.2
    · split
      · intro old new
        rw [has] at new
        cases new
        exact absurd (inv.pages j inside page old).1 (pageFits page rfl).2.2
      · exact inv.onePage j inside k inside' page
  case pageNodup => exact pageNodup
  case pageBelow => exact pageBelow
  case held =>
    intro page member alive
    rcases onlyPage page member with old | new
    · obtain ⟨j, inside, holds⟩ := inv.held page old (onlyLive page old alive)
      have other : j ≠ i := by
        intro here
        rw [here, free] at holds
        cases holds
      exact ⟨j, inside, by rw [filled.slots, if_neg other]; exact holds⟩
    · exact ⟨i, bound, by rw [filled.slots, if_pos rfl, has, new]⟩

theorem FdInv.position (inv : FdInv leaky s) (pos : File → Int)
    (plain : i < fileTableSize → (s.fileTable i).fInode ≠ none → (s.fileTable i).fType.counted = false) :
    FdInv leaky (s.setFile i fun file => { file with fPos := pos file }) := by
  have slot : ∀ j, ((s.setFile i fun file => { file with fPos := pos file }).fileTable j).fInode =
      (s.fileTable j).fInode ∧
      ((s.setFile i fun file => { file with fPos := pos file }).fileTable j).fType = (s.fileTable j).fType := by
    intro j
    rw [Files.setFile_fileTable]
    split
    · rename_i here
      rw [here]
      exact ⟨rfl, rfl⟩
    · exact ⟨rfl, rfl⟩
  have tasks : (s.setFile i fun file => { file with fPos := pos file }).tasks = s.tasks := rfl
  constructor
  case healthy => exact inv.healthy
  case idle => exact inv.idle
  case names =>
    intro t fd used
    obtain ⟨j, inside, entry, object, installed⟩ := inv.names t fd used
    exact ⟨j, inside, entry, by rw [(slot j).1]; exact object, by rw [(slot j).1]; exact installed⟩
  case fits =>
    intro j inside object
    rw [(slot j).1, (slot j).2]
    exact inv.fits j inside object
  case counts =>
    intro j inside used counted
    rw [(slot j).1] at used
    rw [(slot j).2] at counted
    have other : j ≠ i := by
      intro here
      subst here
      rw [plain inside used] at counted
      cases counted
    rw [Files.setFile_fileTable, if_neg other]
    exact inv.counts j inside used counted
  case inodes =>
    intro p
    rw [inodeRefs_congr tasks rfl (fun j _ => (slot j).1)]
    exact inv.inodes p
  case pages =>
    intro j inside page
    rw [(slot j).1]
    exact inv.pages j inside page
  case onePage =>
    intro j inside k inside' page
    rw [(slot j).1, (slot k).1]
    exact inv.onePage j inside k inside' page
  case pageNodup => exact inv.pageNodup
  case pageBelow => exact inv.pageBelow
  case held =>
    intro page member alive
    obtain ⟨j, inside, holds⟩ := inv.held page member alive
    exact ⟨j, inside, by rw [(slot j).1]; exact holds⟩

/-- The directory entry of the path is one that `sys_mknod` or `sys_mkdir` has made. -/
def SaneEntry (fs : State) (pathname : List UInt8) : Prop :=
  match pathPrase fs pathname with
  | .ok (result, de, _) =>
    result < 0 ∨ de.iNo = ulongMax ∨ de.fType = .chr ∨ (de.fType ≠ .fifo ∧ de.iNo < inodeCntMax)
  | .error _ => True

instance (fs : State) (pathname : List UInt8) : Decidable (SaneEntry fs pathname) :=
  match resolved : pathPrase fs pathname with
  | .ok (result, de, _) =>
    decidable_of_iff (result < 0 ∨ de.iNo = ulongMax ∨ de.fType = .chr ∨ (de.fType ≠ .fifo ∧ de.iNo < inodeCntMax))
      (by rw [SaneEntry, resolved])
  | .error _ => .isTrue (by rw [SaneEntry, resolved]; exact True.intro)

theorem openObject_cases {fs opened : State} {de : Dirent} {object : Option Object} (healthy : Healthy fs)
    (ran : openObject fs de = .ok (object, opened)) :
    (de.fType = .chr ∧ object = some .console ∧ opened = fs) ∨
    (de.fType ≠ .chr ∧ ((inodeCntMax ≤ de.iNo ∧ object = none ∧ opened = fs) ∨
      ∃ p, object = some (.inode p) ∧ Adds fs opened (single p))) := by
  unfold openObject at ran
  split at ran
  · rename_i chr
    cases ran
    exact .inl ⟨chr, rfl, rfl⟩
  · rename_i other
    simp only [bind_ok, pure_ok, Prod.exists, Prod.mk.injEq] at ran
    obtain ⟨found, opened', opens, rfl, rfl⟩ := ran
    refine .inr ⟨other, ?_⟩
    cases found with
    | none =>
      rcases inodeOpen_cases opens with ⟨large, _, same⟩ | ⟨_, none, _⟩
      · exact .inl ⟨large, rfl, same⟩
      · cases none
    | some p => exact .inr ⟨p, rfl, ((inodeOpen_opened healthy.cache opens).2).adds healthy⟩

inductive OpenEnd (s : Files) (t : Tid) (resolved : State) (de : Dirent) (after : Files) : Prop where
  | none (same : after = { s with fs := resolved })
  | full (object : Option Object) (opened : State) (opens : openObject resolved de = .ok (object, opened))
      (same : after = { s with fs := opened } ∨
        (de.fType = .chr ∧ after = { s with fs := opened }.setFile fileTableSize fun file => { file with fPos := 1 }))
  | done (object : Option Object) (opened : State) (opens : openObject resolved de = .ok (object, opened)) (fd i : Nat)
      (free : fd < maxFilesOpenPerProc ∧ s.fdTable t fd = -1)
      (slot : i < fileTableSize ∧ (s.fileTable i).fInode = none)
      (same : after = ({ s with fs := opened }.setFile i fun _ =>
        { fPos := if de.fType = FileType.chr then 1 else 0, fInode := object, fType := de.fType }).setFd t fd i object)

theorem sysOpen_cases {pathname : List UInt8} {result : Int} (ran : sysOpen s t pathname = .ok (result, after)) :
    ∃ pINo de resolved, pathPrase s.fs pathname = .ok (pINo, de, resolved) ∧
      ((pINo < 0 ∨ de.iNo = ulongMax) → after = { s with fs := resolved }) ∧ OpenEnd s t resolved de after := by
  simp only [sysOpen, bind_ok, Prod.exists] at ran
  obtain ⟨pINo, de, resolved, resolve, ran⟩ := ran
  refine ⟨pINo, de, resolved, resolve, ?_⟩
  split at ran
  · cases ran
    exact ⟨fun _ => rfl, .none rfl⟩
  · rename_i found
    refine ⟨fun missing => absurd missing found, ?_⟩
    split at ran
    · cases ran
      exact .none rfl
    · rename_i some
      simp only [bind_ok, Prod.exists] at ran
      obtain ⟨object, opened, opens, ran⟩ := ran
      rcases slots : getFreeSlot { s with fs := opened } object de.fType with ⟨i, slotted⟩
      rw [slots] at ran
      dsimp only at ran
      rcases getFreeSlot_cases slots with ⟨rfl, rfl, _⟩ | ⟨bound, free, rfl⟩
      · rw [if_pos rfl] at ran
        by_cases chr : de.fType = .chr
        · rw [if_pos chr] at ran
          cases ran
          exact .full object opened opens (.inr ⟨chr, rfl⟩)
        · rw [if_neg chr] at ran
          cases ran
          exact .full object opened opens (.inl rfl)
      · rw [if_neg (Nat.ne_of_lt bound)] at ran
        have spec := freeFdAlloc_spec { s with fs := resolved } t some
        by_cases chr : de.fType = .chr
        · rw [if_pos chr] at ran
          cases ran
          refine .done object opened opens _ i spec ⟨bound, free⟩ ?_
          rw [if_pos chr]
          simp [Files.setFile]
        · rw [if_neg chr] at ran
          cases ran
          refine .done object opened opens _ i spec ⟨bound, free⟩ ?_
          rw [if_neg chr]

theorem filled_one {file : File} (task : t < s.tasks) (alive : s.exited t = false) (inside : fd < maxFilesOpenPerProc)
    (unused : s.fdTable t fd = -1) :
    Filled s ((s.setFile i fun _ => file).setFd t fd i file.fInode) i file 1 where
  tasks := rfl
  exited := rfl
  fs := rfl
  slots := fun j => Files.setFile_fileTable s i j fun _ => file
  fds := by
    intro u gd
    rw [Files.setFd_fdTable, Files.setFd_installed]
    split
    · rename_i here
      rw [here.1, here.2]
      exact .inr ⟨task, alive, inside, unused, rfl, rfl⟩
    · exact .inl ⟨rfl, rfl⟩
  weight := by
    intro w
    have moved := @weigh_setFd (s.setFile i fun _ => file) t fd i file.fInode w task inside
    have entry : (s.setFile i fun _ => file).fdTable t fd = -1 := unused
    rw [entry] at moved
    rw [Nat.one_mul, Nat.one_mul]
    exact moved

theorem FdInv.install {file : File} {object : Object} (inv : FdInv leaky s) (task : t < s.tasks)
    (alive : s.exited t = false) (free : fd < maxFilesOpenPerProc ∧ s.fdTable t fd = -1)
    (slot : i < fileTableSize ∧ (s.fileTable i).fInode = none) (has : file.fInode = some object)
    (fits : file.fType.Fits object) (count : file.fType.counted = true → file.fPos = 1)
    (room : ∀ p, object = .inode p → (inodeRefs s p : Int) + 1 ≤ opens s.fs p)
    (noPipe : ∀ page, object ≠ .ioqueue page) :
    FdInv leaky ((s.setFile i fun _ => file).setFd t fd i file.fInode) := by
  apply inv.filled (filled_one task alive free.1 free.2) slot.1 slot.2 Nat.one_pos has fits
  case count => exact_mod_cast count
  case room => exact_mod_cast room
  case pageFits => exact fun page wrong => absurd wrong (noPipe page)
  case pipes => exact fun page member => member
  case live => exact fun page member => member
  case pageNodup => exact inv.pageNodup
  case pageBelow => exact inv.pageBelow
  case onlyPage => exact fun page member => .inl member
  case onlyLive => exact fun page _ member => member

theorem Adds.gains_single {fs opened : State} (adds : Adds fs opened (single p)) : Gains fs opened := by
  apply adds.gains
  intro q
  rw [single]
  split <;> decide

theorem openObject_gains {fs opened : State} {de : Dirent} {object : Option Object} (healthy : Healthy fs)
    (ran : openObject fs de = .ok (object, opened)) : Gains fs opened := by
  rcases openObject_cases healthy ran with ⟨_, _, rfl⟩ | ⟨_, ⟨_, _, rfl⟩ | ⟨p, _, adds⟩⟩
  · exact .refl healthy
  · exact .refl healthy
  · exact adds.gains_single

theorem FdInv.sys_open {pathname : List UInt8} {result : Int} (inv : FdInv leaky s) (task : t < s.tasks)
    (alive : s.exited t = false) (sane : SaneEntry s.fs pathname) (ran : sysOpen s t pathname = .ok (result, after)) :
    FdInv leaky after := by
  obtain ⟨pINo, de, resolved, resolve, missing, last⟩ := sysOpen_cases ran
  have resolvedInv := inv.withFs (pathPrase_gains inv.healthy resolve)
  by_cases found : pINo < 0 ∨ de.iNo = ulongMax
  · rw [missing found]
    exact resolvedInv
  have entry : de.fType = .chr ∨ (de.fType ≠ .fifo ∧ de.iNo < inodeCntMax) := by
    rw [SaneEntry, resolve] at sane
    rcases sane with negative | absent | fine
    · exact absurd (.inl negative) found
    · exact absurd (.inr absent) found
    · exact fine
  cases last with
  | none same =>
    rw [same]
    exact resolvedInv
  | full object opened opens same =>
    have openedInv := resolvedInv.withFs (openObject_gains resolvedInv.healthy opens)
    rcases same with rfl | ⟨_, rfl⟩
    · exact openedInv
    · exact openedInv.position (fun _ => 1) (fun bound => absurd bound (Nat.lt_irrefl _))
  | done object opened opens fd i free slot same =>
    subst same
    rcases openObject_cases resolvedInv.healthy opens with ⟨chr, rfl, rfl⟩ | ⟨other, ⟨large, _, _⟩ | ⟨p, rfl, adds⟩⟩
    · rw [if_pos chr, chr]
      exact resolvedInv.install task alive free slot rfl rfl (fun _ => rfl) (fun p wrong => by cases wrong)
        (fun page wrong => by cases wrong)
    · rcases entry with chr | ⟨_, small⟩
      · exact absurd chr other
      · exact absurd small (Nat.not_lt.mpr large)
    · have notFifo : de.fType ≠ .fifo := by
        rcases entry with chr | ⟨fine, _⟩
        · exact absurd chr other
        · exact fine
      have openedInv := resolvedInv.withFs adds.gains_single
      have plain : de.fType.Fits (.inode p) ∧ de.fType.counted = false := by
        cases kind : de.fType with
        | chr => exact absurd kind other
        | fifo => exact absurd kind notFifo
        | dir => exact ⟨⟨p, rfl⟩, rfl⟩
        | reg => exact ⟨⟨p, rfl⟩, rfl⟩
        | other code => exact ⟨⟨p, rfl⟩, rfl⟩
      rw [if_neg other]
      apply openedInv.install task alive free slot rfl plain.1
      · intro counted
        rw [plain.2] at counted
        cases counted
      · intro q here
        cases here
        have before := resolvedInv.inodes p
        have later := adds.opens p
        rw [single, if_pos rfl] at later
        rw [later]
        exact Int.add_le_add_right before 1
      · exact fun page wrong => by cases wrong

/-- Closing slot `i` keeps the slots of inodes that others still name. -/
def CloseAlone (s : Files) (i : Nat) : Prop := (s.fileTable i).fType.counted = false → refs s i ≤ 1

instance (s : Files) (i : Nat) : Decidable (CloseAlone s i) :=
  inferInstanceAs (Decidable ((s.fileTable i).fType.counted = false → refs s i ≤ 1))

theorem refs_drop (task : t < s.tasks) (inside : fd < maxFilesOpenPerProc) (entry : s.fdTable t fd = (i : Int))
    (j : Nat) : refs (s.setFd t fd (-1) none) j + (if j = i then 1 else 0) = refs s j := by
  have moved := @weigh_setFd s t fd (-1) none (fun v => if v = (j : Int) then 1 else 0) task inside
  have gone : ¬ ((-1 : Int) = (j : Int)) := by omega
  rw [entry, if_neg gone, Nat.add_zero] at moved
  rw [refs, refs, ← moved]
  by_cases here : j = i
  · rw [if_pos here, if_pos (by rw [here])]
  · rw [if_neg here, if_neg (fun same => here (Int.ofNat_inj.mp same).symm)]

theorem inodeRefs_drop (task : t < s.tasks) (inside : fd < maxFilesOpenPerProc) (entry : s.fdTable t fd = (i : Int))
    (p : Ptr) : inodeRefs (s.setFd t fd (-1) none) p +
      (if (s.fileTable i).fInode = some (.inode p) then 1 else 0) = inodeRefs s p := by
  have moved := @weigh_setFd s t fd (-1) none
    (fun v => if 0 ≤ v ∧ (s.fileTable v.toNat).fInode = some (.inode p) then 1 else 0) task inside
  have gone : ¬ ((0 : Int) ≤ -1 ∧ (s.fileTable (-1 : Int).toNat).fInode = some (.inode p)) := by omega
  rw [entry, if_neg gone, Nat.add_zero] at moved
  have index : (i : Int).toNat = i := rfl
  have valid : (0 : Int) ≤ i := Int.natCast_nonneg i
  simp only [index, valid, true_and] at moved
  exact moved

theorem FdInv.inode_open (inv : FdInv leaky s) (used : s.fdTable t fd ≠ -1) (entry : s.fdTable t fd = (i : Int))
    (has : (s.fileTable i).fInode = some (.inode p)) : p ∈ s.fs.openInodes := by
  obtain ⟨task, _, inside, _⟩ := inv.entry used
  apply (opens_pos inv.healthy).mpr
  have below := inv.inodes p
  have drop := @inodeRefs_drop s t fd i task inside entry p
  rw [if_pos has] at drop
  omega

structure Dropped (s after : Files) (t : Tid) (fd i : Nat) : Prop where
  tasks : after.tasks = s.tasks
  exited : after.exited = s.exited
  fdTable : after.fdTable = (s.setFd t fd (-1) none).fdTable
  installed : after.installed = (s.setFd t fd (-1) none).installed
  pipes : after.pipes = s.pipes
  freshPage : after.freshPage = s.freshPage
  others : ∀ j, j ≠ i → after.fileTable j = s.fileTable j
  fType : (after.fileTable i).fType = (s.fileTable i).fType
  slot : (after.fileTable i).fInode = (if refs s i = 1 then none else (s.fileTable i).fInode)
  fPos : (s.fileTable i).fType.counted = true → (after.fileTable i).fPos = (s.fileTable i).fPos - 1
  healthy : Healthy after.fs
  opens : ∀ p, opens after.fs p = opens s.fs p - (if (s.fileTable i).fInode = some (.inode p) then 1 else 0)
  livePages : after.livePages = s.livePages ∨
    ∃ page, (s.fileTable i).fInode = some (.ioqueue page) ∧ after.livePages = s.livePages.erase page
  freed : refs s i = 1 → ∀ page, (s.fileTable i).fInode = some (.ioqueue page) →
    after.livePages = s.livePages.erase page
  kept : refs s i ≠ 1 → after.livePages = s.livePages

theorem dropped_counted {dropped : Files} (inv : FdInv leaky s) (positive : 0 < refs s i)
    (bound : i < fileTableSize) (object : (s.fileTable i).fInode ≠ none) (counted : (s.fileTable i).fType.counted = true)
    (lowered : Files) (defined : lowered = s.setFile i fun file => { file with fPos := file.fPos - 1 })
    (pages : List Nat) (pageCase : (∀ page, (s.fileTable i).fInode ≠ some (.ioqueue page)) ∧ pages = s.livePages ∨
      ∃ page, (s.fileTable i).fInode = some (.ioqueue page) ∧ pages = s.livePages.erase page)
    (ran : dropped = if (s.fileTable i).fPos - 1 = 0 then
      { lowered with livePages := pages }.setFile i fun file => { file with fInode := none } else lowered) :
    Dropped s (dropped.setFd t fd (-1) none) t fd i := by
  have exact : (s.fileTable i).fPos = refs s i := by
    rcases inv.counts i bound object counted with ⟨same, _⟩ | ⟨_, zero⟩
    · exact same
    · omega
  have noInode : ∀ p, (s.fileTable i).fInode ≠ some (.inode p) := by
    intro p wrong
    rw [FileType.uncounted (inv.fits i bound (.inode p) wrong)] at counted
    cases counted
  by_cases last : refs s i = 1
  · rw [if_pos (by omega)] at ran
    subst ran defined
    constructor
    case slot => simp [Files.setFd, last]
    case fPos => simp [Files.setFd]
    case fType => simp [Files.setFd]
    case others =>
      intro j other
      simp [Files.setFd, other]
    case healthy => exact inv.healthy
    case opens =>
      intro p
      rw [if_neg (noInode p), Int.sub_zero]
      rfl
    case livePages =>
      rcases pageCase with ⟨_, same⟩ | ⟨page, has, same⟩
      · exact .inl same
      · exact .inr ⟨page, has, same⟩
    case freed =>
      intro _ page has
      rcases pageCase with ⟨none, _⟩ | ⟨page', has', same⟩
      · exact absurd has (none page)
      · rw [has] at has'
        cases has'
        exact same
    case kept => exact fun other => absurd last other
    all_goals rfl
  · rw [if_neg (by omega)] at ran
    subst ran defined
    constructor
    case slot => simp [Files.setFd, last]
    case fPos => simp [Files.setFd]
    case fType => simp [Files.setFd]
    case others =>
      intro j other
      simp [Files.setFd, other]
    case healthy => exact inv.healthy
    case opens =>
      intro p
      rw [if_neg (noInode p), Int.sub_zero]
      rfl
    case livePages => exact .inl rfl
    case freed => exact fun one => absurd one last
    case kept => exact fun _ => rfl
    all_goals rfl

theorem dropped_inode {closed : State} (inv : FdInv leaky s) (one : refs s i = 1)
    (plain : (s.fileTable i).fType.counted = false) (has : (s.fileTable i).fInode = some (.inode p))
    (member : p ∈ s.fs.openInodes) (close : inodeClose s.fs p = .ok closed) :
    Dropped s (({ s with fs := closed }.setFile i fun file => { file with fInode := none }).setFd t fd (-1) none) t fd
      i := by
  have closes := (inodeClose_closed inv.healthy.cache close).adds inv.healthy member
  constructor
  case slot => simp [Files.setFd, one]
  case fPos =>
    intro counted
    rw [plain] at counted
    cases counted
  case fType => simp [Files.setFd]
  case others =>
    intro j other
    simp [Files.setFd, other]
  case healthy => exact closes.healthy
  case opens =>
    intro q
    have count := closes.opens q
    rw [single] at count
    rw [has]
    by_cases here : q = p
    · subst here
      rw [if_pos rfl] at count ⊢
      exact count
    · have other : ¬ (some (Object.inode p) = some (Object.inode q)) := by
        intro same
        cases same
        exact here rfl
      rw [if_neg here] at count
      rw [if_neg other]
      exact count
  case livePages => exact .inl rfl
  case freed =>
    intro _ page wrong
    rw [has] at wrong
    cases wrong
  case kept => exact fun _ => rfl
  all_goals rfl

theorem dropSlot_dropped {dropped : Files} (inv : FdInv leaky s) (used : s.fdTable t fd ≠ -1)
    (entry : s.fdTable t fd = (i : Int)) (alone : CloseAlone s i) (ran : dropSlot s i = .ok dropped) :
    Dropped s (dropped.setFd t fd (-1) none) t fd i := by
  obtain ⟨task, alive, inside, j, bound, entry', positive, object⟩ := inv.entry used
  have here : j = i := Int.ofNat_inj.mp (entry'.symm.trans entry)
  subst here
  have single : (s.fileTable j).fType.counted = false → refs s j = 1 := by
    intro plain
    have most := alone plain
    omega
  unfold dropSlot at ran
  dsimp only at ran
  split at ran
  · cases ran
  · rename_i _ o kind has
    cases ran
    refine dropped_counted inv positive bound object (by rw [kind]; rfl) _ rfl s.livePages (.inl ⟨?_, rfl⟩) rfl
    intro page wrong
    have fits := inv.fits j bound _ wrong
    rw [kind] at fits
    cases fits
  · rename_i _ page kind has
    cases ran
    exact dropped_counted inv positive bound object (by rw [kind]; rfl) _ rfl (s.livePages.erase page)
      (.inr ⟨page, has, rfl⟩) rfl
  · rename_i _ p kind has
    simp only [bind_ok, pure_ok] at ran
    obtain ⟨closed, close, rfl⟩ := ran
    have plain : (s.fileTable j).fType.counted = false := by rw [kind]; rfl
    exact dropped_inode inv (single plain) plain has (inv.inode_open used entry has) close
  · rename_i _ p kind has
    simp only [bind_ok, pure_ok] at ran
    obtain ⟨closed, close, rfl⟩ := ran
    have plain : (s.fileTable j).fType.counted = false := by rw [kind]; rfl
    exact dropped_inode inv (single plain) plain has (inv.inode_open used entry has) close
  · rename_i _ code p kind has
    simp only [bind_ok, pure_ok] at ran
    obtain ⟨closed, close, rfl⟩ := ran
    have plain : (s.fileTable j).fType.counted = false := by rw [kind]; rfl
    exact dropped_inode inv (single plain) plain has (inv.inode_open used entry has) close
  · cases ran

theorem Dropped.types (dropped : Dropped s after t fd i) (j : Nat) :
    (after.fileTable j).fType = (s.fileTable j).fType := by
  by_cases same : j = i
  · rw [same, dropped.fType]
  · rw [dropped.others j same]

theorem Dropped.objects (dropped : Dropped s after t fd i) (j : Nat) (object : Object)
    (has : (after.fileTable j).fInode = some object) : (s.fileTable j).fInode = some object := by
  by_cases same : j = i
  · subst same
    rw [dropped.slot] at has
    split at has
    · cases has
    · exact has
  · rw [dropped.others j same] at has
    exact has

theorem Dropped.refs (dropped : Dropped s after t fd i) (task : t < s.tasks) (inside : fd < maxFilesOpenPerProc)
    (entry : s.fdTable t fd = (i : Int)) (j : Nat) : refs after j + (if j = i then 1 else 0) = refs s j := by
  have tasks : after.tasks = (s.setFd t fd (-1) none).tasks := dropped.tasks
  rw [← refs_drop task inside entry j, refs_congr tasks dropped.fdTable]

theorem Dropped.object (dropped : Dropped s after t fd i) (task : t < s.tasks) (inside : fd < maxFilesOpenPerProc)
    (entry : s.fdTable t fd = (i : Int)) {j : Nat} (named : 0 < Fs.refs after j) :
    (after.fileTable j).fInode = (s.fileTable j).fInode := by
  by_cases here : j = i
  · subst here
    have count := dropped.refs task inside entry j
    rw [if_pos rfl] at count
    rw [dropped.slot, if_neg (by omega)]
  · rw [dropped.others j here]

theorem Dropped.inodeRefs (dropped : Dropped s after t fd i) (task : t < s.tasks) (inside : fd < maxFilesOpenPerProc)
    (entry : s.fdTable t fd = (i : Int)) (p : Ptr) :
    inodeRefs after p + (if (s.fileTable i).fInode = some (.inode p) then 1 else 0) = inodeRefs s p := by
  have tasks : after.tasks = (s.setFd t fd (-1) none).tasks := dropped.tasks
  rw [← inodeRefs_drop task inside entry p]
  congr 1
  apply inodeRefs_congr tasks dropped.fdTable
  intro j named
  apply dropped.object task inside entry
  rw [refs_congr tasks dropped.fdTable]
  exact named

theorem FdInv.dropped (inv : FdInv leaky s) (used : s.fdTable t fd ≠ -1) (entry : s.fdTable t fd = (i : Int))
    (dropped : Dropped s after t fd i) : FdInv leaky after := by
  obtain ⟨task, alive, inside, j, bound, entry', positive, object⟩ := inv.entry used
  have here : j = i := Int.ofNat_inj.mp (entry'.symm.trans entry)
  subst here
  have count := dropped.refs task inside entry
  have keeps := @Dropped.object _ _ _ _ _ dropped task inside entry
  have fdSame : ∀ u gd, after.fdTable u gd ≠ -1 → after.fdTable u gd = s.fdTable u gd ∧
      after.installed u gd = s.installed u gd := by
    intro u gd named
    rw [dropped.fdTable, Files.setFd_fdTable] at named ⊢
    rw [dropped.installed, Files.setFd_installed]
    by_cases same : u = t ∧ gd = fd
    · rw [if_pos same] at named
      exact absurd rfl named
    · rw [if_neg same, if_neg same]
      exact ⟨rfl, rfl⟩
  have types := dropped.types
  have objects := dropped.objects
  constructor
  case healthy => exact dropped.healthy
  case idle =>
    intro u gd unused
    rw [dropped.tasks, dropped.exited] at unused
    rw [dropped.fdTable, Files.setFd_fdTable]
    split
    · rfl
    · exact inv.idle u gd unused
  case names =>
    intro u gd named
    obtain ⟨same, installed⟩ := fdSame u gd named
    rw [same] at named ⊢
    obtain ⟨k, inside', entry', object', before⟩ := inv.names u gd named
    have entryTask := inv.entry named
    have stillNamed : 0 < Fs.refs after k :=
      refs_pos.mpr ⟨u, gd, by rw [dropped.tasks]; exact entryTask.1, entryTask.2.2.1, same.trans entry'⟩
    exact ⟨k, inside', entry', by rw [keeps stillNamed]; exact object', by rw [keeps stillNamed, installed]; exact before⟩
  case fits =>
    intro k inside' o has
    rw [types]
    exact inv.fits k inside' o (objects k o has)
  case counts =>
    intro k inside' some counted
    rw [types] at counted
    by_cases same : k = j
    · subst same
      have now := count k
      rw [if_pos rfl] at now
      have before := inv.counts k inside' object counted
      rw [dropped.fPos counted]
      rw [dropped.slot] at some
      split at some
      · exact absurd rfl some
      · rcases before with ⟨exact, _⟩ | ⟨_, zero⟩
        · left
          omega
        · omega
    · have now := count k
      rw [if_neg same, Nat.add_zero] at now
      rw [dropped.others k same] at some ⊢
      rw [now]
      exact inv.counts k inside' some counted
  case inodes =>
    intro p
    have moved := dropped.inodeRefs task inside entry p
    have before := inv.inodes p
    rw [dropped.opens]
    by_cases has : (s.fileTable j).fInode = some (.inode p)
    · rw [if_pos has] at moved ⊢
      omega
    · rw [if_neg has] at moved ⊢
      omega
  case pages =>
    intro k inside' page has
    obtain ⟨member, live⟩ := inv.pages k inside' page (objects k _ has)
    rw [dropped.pipes]
    refine ⟨member, ?_⟩
    intro named
    have now := count k
    have alive := live (by omega)
    rcases dropped.livePages with same | ⟨page', has', erased⟩
    · rw [same]
      exact alive
    · by_cases same : k = j
      · subst same
        rw [if_pos rfl] at now
        rw [dropped.kept (by omega)]
        exact alive
      · have other : page ≠ page' := by
          intro equal
          subst equal
          exact same (inv.onePage k inside' j bound page (objects k _ has) has')
        rw [erased]
        exact (List.mem_erase_of_ne other).mpr alive
  case onePage =>
    intro k inside' l inside'' page left right
    exact inv.onePage k inside' l inside'' page (objects k _ left) (objects l _ right)
  case pageNodup =>
    rcases dropped.livePages with same | ⟨page', _, erased⟩
    · rw [same]
      exact inv.pageNodup
    · rw [erased]
      exact inv.pageNodup.erase _
  case pageBelow =>
    intro page member
    rw [dropped.freshPage]
    apply inv.pageBelow
    rw [dropped.pipes] at member
    rcases dropped.livePages with same | ⟨page', _, erased⟩
    · rw [same] at member
      exact member
    · rw [erased] at member
      exact member.imp List.mem_of_mem_erase id
  case held =>
    intro page member live
    rw [dropped.pipes] at member
    have before : page ∈ s.livePages := by
      rcases dropped.livePages with same | ⟨page', _, erased⟩
      · rw [same] at live
        exact live
      · rw [erased] at live
        exact List.mem_of_mem_erase live
    obtain ⟨k, inside', holds⟩ := inv.held page member before
    refine ⟨k, inside', ?_⟩
    by_cases same : k = j
    · subst same
      rw [dropped.slot]
      split
      · rename_i last
        rw [dropped.freed last page holds] at live
        exact absurd live (fun again => inv.pageNodup.not_mem_erase again)
      · exact holds
    · rw [dropped.others k same]
      exact holds

theorem sysClose_cases {fd : Int} {result : Int} (ran : sysClose s t fd = .ok (result, after)) :
    (fdRejected s t fd = true ∧ after = s) ∨
    ∃ (gd : Nat) (dropped : Files), fd = (gd : Int) ∧ gd < maxFilesOpenPerProc ∧ 0 ≤ s.fdTable t gd ∧
      dropSlot s (s.fdTable t gd).toNat = .ok dropped ∧ after = dropped.setFd t gd (-1) none := by
  unfold sysClose at ran
  split at ran
  · rename_i rejected
    cases ran
    exact .inl ⟨rejected, rfl⟩
  · rename_i fine
    simp only [bind_ok, pure_ok, Prod.mk.injEq] at ran
    obtain ⟨dropped, drop, _, rfl⟩ := ran
    simp only [fdRejected, Bool.or_eq_true, decide_eq_true_eq, not_or] at fine
    obtain ⟨⟨⟨low, _⟩, valid⟩, _⟩ := fine
    unfold fdEntry at valid drop
    split at valid
    · rename_i inside
      rw [if_pos inside] at drop
      exact .inr ⟨fd.toNat, dropped, by omega, by omega, by omega, drop, rfl⟩
    · exact absurd (by decide : (-1 : Int) < 0) valid

def MayClose (s : Files) (t : Tid) (fd : Nat) : Prop :=
  0 ≤ s.fdTable t fd → CloseAlone s (s.fdTable t fd).toNat

instance (s : Files) (t : Tid) (fd : Nat) : Decidable (MayClose s t fd) :=
  inferInstanceAs (Decidable (0 ≤ s.fdTable t fd → CloseAlone s (s.fdTable t fd).toNat))

theorem sysClose_dropped {fd : Int} {result : Int} (inv : FdInv leaky s) (may : MayClose s t fd.toNat)
    (ran : sysClose s t fd = .ok (result, after)) :
    (fdRejected s t fd = true ∧ after = s) ∨
    ∃ i : Nat, s.fdTable t fd.toNat = (i : Int) ∧ s.fdTable t fd.toNat ≠ -1 ∧ Dropped s after t fd.toNat i := by
  rcases sysClose_cases ran with rejected | ⟨gd, dropped, rfl, inside, valid, drop, rfl⟩
  · exact .inl rejected
  · have entry : s.fdTable t gd = ((s.fdTable t gd).toNat : Int) := (Int.toNat_of_nonneg valid).symm
    have used : s.fdTable t gd ≠ -1 := by omega
    exact .inr ⟨_, entry, used, dropSlot_dropped inv used entry (may valid) drop⟩

theorem FdInv.sys_close {fd : Int} {result : Int} (inv : FdInv leaky s) (may : MayClose s t fd.toNat)
    (ran : sysClose s t fd = .ok (result, after)) : FdInv leaky after := by
  rcases sysClose_dropped inv may ran with ⟨_, rfl⟩ | ⟨i, entry, used, dropped⟩
  · exact inv
  · exact inv.dropped used entry dropped

end RecoverOs.Fs
