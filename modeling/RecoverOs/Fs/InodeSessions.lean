import RecoverOs.Fs.BlockOwnership

namespace RecoverOs.Fs

open Bytes Transition

/-- The numbers `disk_inode_create` has returned and the handles not yet closed. -/
structure Session where
  fs : State
  created : List Nat
  handles : List Ptr

inductive InodeOp where
  | diskInodeCreate
  | inodeOpen (iNo : Nat)
  | inodeClose (inode : Ptr)
  | inodeSizeChange (inode : Ptr) (size : Nat)
  | inodeWrite (inode : Ptr) (buf : Buffer) (nbyte offset : Nat)
  | diskInodeDelete (iNo : Nat)

def Session.step (s : Session) : InodeOp → Except Halt Session
  | .diskInodeCreate =>
    match Fs.diskInodeCreate s.fs with
    | (result, fs) => .ok { s with fs := fs, created := if result < 0 then s.created else result.toNat :: s.created }
  | .inodeOpen iNo => do
    offer (s.created.contains iNo)
    let (opened, fs) ← Fs.inodeOpen s.fs iNo
    let p ← deref opened
    return { s with fs := fs, handles := p :: s.handles }
  | .inodeClose p => do
    offer (s.handles.contains p)
    let fs ← Fs.inodeClose s.fs p
    return { s with fs := fs, handles := s.handles.erase p }
  | .inodeSizeChange p size => do
    offer (s.handles.contains p)
    let (_, fs) ← Fs.inodeSizeChange s.fs p size
    return { s with fs := fs }
  | .inodeWrite p buf nbyte offset => do
    offer (s.handles.contains p && decide (1 ≤ nbyte) && decide (offset + nbyte < 2 ^ 64))
    let (_, fs) ← Fs.inodeWrite s.fs p buf nbyte offset
    return { s with fs := fs }
  | .diskInodeDelete iNo => do
    offer (s.created.contains iNo)
    let fs ← Fs.diskInodeDelete s.fs iNo
    return { s with fs := fs }

def Session.start (fs : State) : Session where
  fs := fs
  created := [0]
  handles := []

/-- Block `bid` is entry `k` of the owned blocks of inode `iNo`. -/
def Owns (s : State) (iNo k bid : Nat) : Prop :=
  k < divRoundUp (current s iNo).fileSize blockSize ∧ (current s iNo).direct k = bid

/-- The blocks owned by the inodes created so far are disjoint, marked and inside the data area. -/
structure BlockOwnership (part : Partition) (s : Session) : Prop where
  disjoint : ∀ i ∈ s.created, ∀ j ∈ s.created, ∀ k l bid, Owns s.fs i k bid → Owns s.fs j l bid → i = j ∧ k = l
  marked : ∀ i ∈ s.created, ∀ k bid, Owns s.fs i k bid →
    bitmapByte s.fs.disk s.fs.sb.blockBitmapStart (bid - part.superBlockBid) = 1
  inside : ∀ i ∈ s.created, ∀ k bid, Owns s.fs i k bid →
    s.fs.sb.dataStart ≤ bid ∧ bid < part.superBlockBid + s.fs.sb.blockBitmapSize

structure SessionInv (base : Nat) (s : Session) : Prop where
  own : OwnInv base (· ∈ s.created) s.fs
  counts : ∀ p ∈ s.fs.openInodes, (s.fs.inode p).openCnts = s.handles.count p ∧ 0 < s.handles.count p
  handles : ∀ p ∈ s.handles, p ∈ s.fs.openInodes

theorem SessionInv.ownership {part : Partition} {s : Session} (inv : SessionInv part.superBlockBid s) :
    BlockOwnership part s where
  disjoint := fun i first j second k l bid left right => inv.own.sound.apart i j k l bid first second left right
  marked := fun i member k bid owns => (inv.own.sound.good i k bid member owns).marked
  inside := fun i member k bid owns =>
    ⟨(inv.own.sound.good i k bid member owns).low, (inv.own.sound.good i k bid member owns).high⟩

variable {base : Nat}

theorem OwnInv.weaken {created other : Nat → Prop} {s : State} (inv : OwnInv base created s)
    (same : ∀ i, created i ↔ other i) : OwnInv base other s := by
  have equal : created = other := by
    funext i
    exact propext (same i)
  exact equal ▸ inv

theorem SessionInv.counted {s : Session} (inv : SessionInv base s) : Counted s.fs := by
  intro p member
  rw [(inv.counts p member).1]
  exact_mod_cast (inv.counts p member).2

theorem SessionInv.isOpen {s : Session} {p : Ptr} (inv : SessionInv base s) (member : p ∈ s.handles) :
    IsOpen s.fs p (s.fs.inode p).iNo :=
  ⟨inv.handles p member, rfl⟩

theorem SessionInv.same {s : Session} {fs : State} {created : List Nat} (inv : SessionInv base s)
    (own : OwnInv base (· ∈ created) fs) (same : SameHandles s.fs fs) :
    SessionInv base { s with fs := fs, created := created } where
  own := own
  counts := by
    intro p member
    have before := (same.mem p).mp member
    rw [same.openCnts p before]
    exact inv.counts p before
  handles := fun p member => (same.mem p).mpr (inv.handles p member)

theorem SessionInv.open_inode {s : Session} {fs : State} {iNo : Nat} {p : Ptr} (inv : SessionInv base s)
    (member : iNo ∈ s.created) (opened : Opened s.fs iNo p fs) :
    SessionInv base { s with fs := fs, handles := p :: s.handles } where
  own := inv.own.opened member opened
  counts := by
    intro q inside
    rw [List.count_cons]
    by_cases before : q ∈ s.fs.openInodes
    · obtain ⟨_, _, count⟩ := opened.old q before
      obtain ⟨exact, positive⟩ := inv.counts q before
      by_cases here : q = p
      · subst here
        rw [if_pos rfl] at count
        simp only [beq_self_eq_true, if_true]
        omega
      · rw [if_neg here] at count
        have other : (p == q) = false := beq_false_of_ne (Ne.symm here)
        simp only [other, Bool.false_eq_true, if_false]
        omega
    · obtain ⟨here, one, _⟩ := opened.new q inside before
      have absent : s.handles.count q = 0 := List.count_eq_zero.mpr fun held => before (inv.handles q held)
      subst here
      simp only [beq_self_eq_true, if_true, one, absent]
      exact ⟨rfl, Nat.one_pos⟩
  handles := by
    intro q held
    rcases List.mem_cons.mp held with rfl | held
    · exact opened.isOpen.mem
    · exact opened.grows (inv.handles q held)

theorem SessionInv.close_inode {s : Session} {fs : State} {p : Ptr} (inv : SessionInv base s) (held : p ∈ s.handles)
    (closed : Closed s.fs p fs) : SessionInv base { s with fs := fs, handles := s.handles.erase p } where
  own := inv.own.closed (inv.handles p held) closed
  counts := by
    intro q inside
    obtain ⟨before, more⟩ := (closed.shrinks q).mp inside
    obtain ⟨exact, positive⟩ := inv.counts q before
    rw [closed.openCnts]
    by_cases here : q = p
    · subst here
      have several := more rfl
      rw [if_pos rfl, List.count_erase_self]
      omega
    · rw [if_neg here, List.count_erase_of_ne here]
      omega
  handles := by
    intro q stays
    have held' := List.mem_of_mem_erase stays
    rw [closed.shrinks]
    refine ⟨inv.handles q held', ?_⟩
    intro here
    subst here
    have count := (inv.counts q (inv.handles q held)).1
    have left : 0 < (s.handles.erase q).count q := List.count_pos_iff.mpr stays
    rw [List.count_erase_self] at left
    omega

theorem session_step (s : Session) (op : InodeOp) (after : Session) (inv : SessionInv base s)
    (ran : s.step op = .ok after) : SessionInv base after := by
  cases op with
  | diskInodeCreate =>
    simp only [Session.step] at ran
    cases created : Fs.diskInodeCreate s.fs with
    | mk result fs =>
      rw [created] at ran
      cases ran
      have same := diskInodeCreate_same s.fs
      rw [created] at same
      have own := inv.own.create created
      apply inv.same _ same.handles
      apply own.weaken
      intro i
      dsimp only
      split
      · rename_i failed
        constructor
        · intro member
          rcases member with member | negative
          · exact member
          · omega
        · exact .inl
      · rename_i fine
        rw [List.mem_cons]
        constructor
        · intro member
          rcases member with member | new
          · exact .inr member
          · exact .inl (by omega)
        · intro member
          rcases member with new | member
          · exact .inr (by omega)
          · exact .inl member
  | inodeOpen iNo =>
    simp only [Session.step, bind_ok, offer_ok, pure_ok, List.contains_iff_mem, Prod.exists] at ran
    obtain ⟨_, member, opened, fs, opens, p, pointer, rfl⟩ := ran
    obtain ⟨_, q, rfl, opened⟩ := inv.own.open_inode member opens
    obtain rfl := deref_some.mp pointer
    exact inv.open_inode member opened
  | inodeClose p =>
    simp only [Session.step, bind_ok, offer_ok, pure_ok, List.contains_iff_mem] at ran
    obtain ⟨_, held, fs, closes, rfl⟩ := ran
    exact inv.close_inode held (inodeClose_closed inv.own.cache closes)
  | inodeSizeChange p size =>
    simp only [Session.step, bind_ok, offer_ok, pure_ok, List.contains_iff_mem, Prod.exists] at ran
    obtain ⟨_, held, _, fs, change, rfl⟩ := ran
    exact inv.same (inv.own.size_change (inv.isOpen held) change) (inodeSizeChange_same change).handles
  | inodeWrite p buf nbyte offset =>
    simp only [Session.step, bind_ok, offer_ok, pure_ok, Bool.and_eq_true, List.contains_iff_mem, Prod.exists] at ran
    obtain ⟨_, ⟨⟨held, _⟩, _⟩, _, fs, write, rfl⟩ := ran
    exact inv.same (inv.own.write (inv.isOpen held) write) (inodeWrite_same write).handles
  | diskInodeDelete iNo =>
    simp only [Session.step, bind_ok, offer_ok, pure_ok, List.contains_iff_mem] at ran
    obtain ⟨_, member, fs, delete, rfl⟩ := ran
    exact inv.same (inv.own.delete member delete) (diskInodeDelete_handles inv.own.cache inv.counted delete).2

theorem mounted_own {disk : Disk} {part : Partition} :
    OwnInv part.superBlockBid (fun _ => False) (mounted (partitionFormat disk part) part.superBlock) := by
  have layout := superBlock_layout part
  refine { layout := layout, cache := ?_, members := ?_, bounded := ?_, reserved := ?_, size := ?_, coherent := ?_,
           sound := ?_ }
  · exact ⟨List.nodup_nil, by simp [mounted], by simp [mounted], by simp [mounted]⟩
  · simp [mounted]
  · exact fun _ none => none.elim
  · intro idx low high
    have start : part.superBlock.dataStart = part.superBlockBid + 1 + divRoundUp part.blockCnt blockSize +
      inodeBitmapBcnt + inodeTableBcnt := rfl
    have count : idx < part.blockCnt := high
    have block : idx / blockSize < divRoundUp part.blockCnt blockSize := by
      simp only [divRoundUp, blockSize]
      omega
    have formatted := @partitionFormat_blockBitmap disk part _ (idx % blockSize) block (Nat.mod_lt idx (by decide))
    rw [mounted] at low
    dsimp only at low
    -- Every block of the bitmap repeats the marks of the first one.
    rw [if_pos (by have below := Nat.mod_le idx blockSize; omega), Nat.add_comm] at formatted
    rw [blockMark, bitmapByte_eq]
    exact ne_of_eq_of_ne formatted (by decide)
  · exact fun _ none => none.elim
  · simp [mounted]
  · exact ⟨fun _ _ _ _ _ none => none.elim, fun _ _ _ none => none.elim⟩

theorem format_start {disk : Disk} {part : Partition} {s : State} (formatted : format disk part = .ok s) :
    SessionInv part.superBlockBid (Session.start s) := by
  have blank := @mounted_own disk part
  simp only [format, createRootDir] at formatted
  rcases creates : diskInodeCreate (mounted (partitionFormat disk part) part.superBlock) with ⟨result, made⟩
  rw [creates] at formatted
  simp only [bind_ok, Prod.exists, assert_ok, beq_iff_eq] at formatted
  obtain ⟨_, zero, opened, loaded, opens, q, pointer, _, first, addFirst, _, _, _, second, addSecond, _, _, close⟩ :=
    formatted
  have root : OwnInv part.superBlockBid (· ∈ [0]) made := by
    apply (blank.create creates).weaken
    intro i
    simp [zero]
  have empty : made.openInodes = [] := by
    have same := diskInodeCreate_same (mounted (partitionFormat disk part) part.superBlock)
    rw [creates] at same
    exact same.openInodes
  obtain ⟨loadedOwn, p, rfl, open'⟩ := root.open_inode (List.mem_singleton.mpr rfl) opens
  obtain rfl := deref_some.mp pointer
  have firstOwn := loadedOwn.dirent_add open'.isOpen addFirst
  have firstOpen := open'.isOpen.same (direntAdd_same addFirst)
  have secondOwn := firstOwn.dirent_add firstOpen addSecond
  have secondOpen := firstOpen.same (direntAdd_same addSecond)
  have closed := inodeClose_closed secondOwn.cache close
  have counted : Counted made := by
    intro r member
    rw [empty] at member
    cases member
  have handles := opened_closed counted open' ((direntAdd_same addFirst).trans (direntAdd_same addSecond)) closed
  have nothing : ∀ r, r ∉ s.openInodes := by
    intro r member
    have before := (handles.mem r).mp member
    rw [empty] at before
    cases before
  exact ⟨secondOwn.closed secondOpen.mem closed, fun r member => absurd member (nothing r), fun r held => by cases held⟩

/-- Block ownership holds in every state the inode operations reach from a freshly formatted partition. -/
theorem blocks_owned_once (disk : Disk) (part : Partition) (_small : part.blockCnt ≤ 4096) (fs : State)
    (formatted : format disk part = .ok fs) (ops : List InodeOp) (s : Session)
    (ran : run Session.step (Session.start fs) ops = .ok s) : BlockOwnership part s :=
  (run_invariant (fun s op after inv _ ran => session_step s op after inv ran) (format_start formatted)
    (meets_true Session.step (Session.start fs) ops) ran).ownership

/-- Two files grow, one shrinks, the other is deleted while it is open, grows again and its number is reused. -/
def reuseRun : List InodeOp :=
  [.diskInodeCreate, .diskInodeCreate, .inodeOpen 1, .inodeOpen 2, .inodeWrite 1 (fun _ => 7) 5000 0,
    .inodeSizeChange 2 9000, .inodeSizeChange 1 100, .diskInodeDelete 2, .inodeSizeChange 2 4097, .diskInodeCreate,
    .inodeWrite 1 (fun _ => 8) 20 4090, .inodeSizeChange 1 400000, .inodeClose 2]

theorem blocks_owned_once_reused : ∃ fs s, format (fun _ _ => 7) ⟨64, 800⟩ = .ok fs ∧
    run Session.step (Session.start fs) reuseRun = .ok s ∧ s.created = [2, 2, 1, 0] ∧
    BlockOwnership ⟨64, 800⟩ s := by
  have evaluated : endsIn (format (fun _ _ => 7) ⟨64, 800⟩) (fun fs =>
      endsIn (run Session.step (Session.start fs) reuseRun) fun s => decide (s.created = [2, 2, 1, 0])) = true := by
    decide +kernel
  obtain ⟨fs, formatted, rest⟩ := exists_of_endsIn evaluated
  obtain ⟨s, ran, created⟩ := exists_of_endsIn rest
  exact ⟨fs, s, formatted, ran, by simpa using created,
    blocks_owned_once (fun _ _ => 7) ⟨64, 800⟩ (by decide) fs formatted reuseRun s ran⟩

end RecoverOs.Fs
