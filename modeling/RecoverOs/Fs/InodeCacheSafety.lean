import RecoverOs.Fs.InodeCache
import RecoverOs.Logic.Counting

namespace RecoverOs.Fs.Cache

open Transition

/-- Pointers in use are cached and not freed, and one inode number has one inode, in the cache and in use. -/
structure CacheSafe (s : State) : Prop where
  cached : ∀ t p, p ∈ s.held t → p ∈ s.openInodes ∧ (s.inode p).live = true
  unique : ∀ p ∈ s.openInodes, ∀ q ∈ s.openInodes, (s.inode p).iNo = (s.inode q).iNo → p = q
  oneInUse : ∀ t u p q, p ∈ s.held t → q ∈ s.held u → (s.inode p).iNo = (s.inode q).iNo → p = q

/-- The two windows stay apart. A close that has the inode's lock takes `open_cnts` to zero only when no task has
    found the inode and is still to count itself, and a lookup that has the list's lock finds no inode whose close has
    begun to unlink it. -/
def Apart (s : State) : Place → Prop
  | .closeLock p => (s.inode p).inodeLock.value ≠ 0 → (s.inode p).openCnts = 1 →
      ∀ u < s.tasks, s.place u ≠ .openCount p
  | .openLookup iNo => s.openInodesLock.value ≠ 0 →
      ∀ p ∈ findInode s iNo, ∀ u < s.tasks, s.place u ≠ .closeList p
  | _ => True

def NoCrossing (s : State) : Op → Prop
  | .go _ _ => ∀ t ∈ s.current, Apart s (s.place t)
  | _ => True

instance (s : State) : (place : Place) → Decidable (Apart s place)
  | .closeLock p => inferInstanceAs (Decidable ((s.inode p).inodeLock.value ≠ 0 → (s.inode p).openCnts = 1 →
      ∀ u < s.tasks, s.place u ≠ .openCount p))
  | .openLookup iNo => inferInstanceAs (Decidable (s.openInodesLock.value ≠ 0 →
      ∀ p ∈ findInode s iNo, ∀ u < s.tasks, s.place u ≠ .closeList p))
  | .outside | .openRead _ _ | .openCount _ | .useLock _ | .useHold _ | .closeList _ => .isTrue True.intro

instance (s : State) : (op : Op) → Decidable (NoCrossing s op)
  | .go _ _ => inferInstanceAs (Decidable (∀ t ∈ s.current, Apart s (s.place t)))
  | .call _ | .diskDone _ | .dispatch => .isTrue True.intro

structure SameCore (s after : State) : Prop where
  tasks : after.tasks = s.tasks
  iNo : ∀ p, (after.inode p).iNo = (s.inode p).iNo
  openCnts : ∀ p, (after.inode p).openCnts = (s.inode p).openCnts
  live : ∀ p, (after.inode p).live = (s.inode p).live
  openInodes : after.openInodes = s.openInodes
  value : after.openInodesLock.value = s.openInodesLock.value
  place : after.place = s.place
  held : after.held = s.held

def holders (s : State) (p : Ptr) : Nat :=
  ∑ t ∈ Finset.range s.tasks, (s.held t).count p

structure Inv (s : State) : Prop where
  outside : ∀ t, s.tasks ≤ t → s.place t = .outside ∧ s.held t = []
  reading : ∀ t p iNo, s.place t = .openRead p iNo → s.openInodesLock.value = 0 ∧ (s.inode p).live = true ∧
    p ∉ s.openInodes ∧ ∀ q ∈ s.openInodes, (s.inode q).iNo ≠ iNo
  oneReader : ∀ t u p q i j, s.place t = .openRead p i → s.place u = .openRead q j → t = u
  nodup : s.openInodes.Nodup
  listed : ∀ p ∈ s.openInodes, (s.inode p).live = true
  unique : ∀ p ∈ s.openInodes, ∀ q ∈ s.openInodes, (s.inode p).iNo = (s.inode q).iNo → p = q
  counting : ∀ t p, s.place t = .openCount p → p ∈ s.openInodes
  closing : ∀ t p, s.place t = .closeList p → p ∈ s.openInodes ∧ (s.inode p).openCnts = 0 ∧
    ∀ u, s.place u ≠ .openCount p ∧ (s.place u = .closeList p → u = t)
  held : ∀ t p, p ∈ s.held t → p ∈ s.openInodes
  inUse : ∀ t p, s.place t = .useLock p ∨ s.place t = .useHold p ∨ s.place t = .closeLock p → p ∈ s.held t
  counts : ∀ p ∈ s.openInodes, (s.inode p).openCnts = holders s p

theorem Inv.safe {s : State} (inv : Inv s) : CacheSafe s where
  cached := fun t p member => ⟨inv.held t p member, inv.listed p (inv.held t p member)⟩
  unique := inv.unique
  oneInUse := fun t u p q left right => inv.unique p (inv.held t p left) q (inv.held u q right)

theorem Inv.same {s after : State} (inv : Inv s) (same : SameCore s after) : Inv after := by
  have holdersSame : ∀ p, holders after p = holders s p := by
    intro p
    simp only [holders, same.tasks, same.held]
  constructor
  case outside => rw [same.tasks, same.place, same.held]; exact inv.outside
  case reading => simp only [same.place, same.value, same.live, same.openInodes, same.iNo]; exact inv.reading
  case oneReader => rw [same.place]; exact inv.oneReader
  case nodup => rw [same.openInodes]; exact inv.nodup
  case listed => simp only [same.openInodes, same.live]; exact inv.listed
  case unique => simp only [same.openInodes, same.iNo]; exact inv.unique
  case counting => rw [same.place, same.openInodes]; exact inv.counting
  case closing => simp only [same.place, same.openInodes, same.openCnts]; exact inv.closing
  case held => rw [same.held, same.openInodes]; exact inv.held
  case inUse => rw [same.place, same.held]; exact inv.inUse
  case counts => simp only [same.openInodes, same.openCnts, holdersSame]; exact inv.counts

@[simp] theorem State.setInode_inode (s : State) (p q : Ptr) (f : Inode → Inode) :
    (s.setInode p f).inode q = if q = p then f (s.inode p) else s.inode q := by
  simp [State.setInode, Function.update_apply]

@[simp] theorem State.setPlace_place (s : State) (t u : Tid) (place : Place) :
    (s.setPlace t place).place u = if u = t then place else s.place u := by
  simp [State.setPlace, Function.update_apply]

@[simp] theorem State.setHeld_held (s : State) (t u : Tid) (held : List Ptr) :
    (s.setHeld t held).held u = if u = t then held else s.held u := by
  simp [State.setHeld, Function.update_apply]

theorem takeInodeLock_core (s : State) (p : Ptr) : SameCore s (takeInodeLock s p) := by
  refine ⟨rfl, ?_, ?_, ?_, rfl, rfl, rfl, rfl⟩
  all_goals
    intro q
    simp only [takeInodeLock, State.setInode_inode]
    split <;> simp_all

theorem upInodeLock_core {s after : State} {p : Ptr} (ran : upInodeLock s p = .ok after) : SameCore s after := by
  simp only [upInodeLock, bind_ok, pure_ok, Prod.exists] at ran
  obtain ⟨sema, woken, _, rfl⟩ := ran
  refine ⟨rfl, ?_, ?_, ?_, rfl, rfl, rfl, rfl⟩
  all_goals
    intro q
    simp only [State.wake, State.setInode_inode]
    split <;> simp_all

theorem waitInodeLock_core {s after : State} {p : Ptr} {t : Tid} (ran : waitInodeLock s p t = .ok after) :
    SameCore s after := by
  simp only [waitInodeLock, bind_ok, pure_ok] at ran
  obtain ⟨sema, _, rfl⟩ := ran
  refine ⟨rfl, ?_, ?_, ?_, rfl, rfl, rfl, rfl⟩
  all_goals
    intro q
    simp only [State.setInode_inode]
    split <;> simp_all

theorem waitOpenInodesLock_core {s after : State} {t : Tid} (ran : waitOpenInodesLock s t = .ok after) :
    SameCore s after := by
  simp only [waitOpenInodesLock, bind_ok, pure_ok, Semaphore.wait] at ran
  obtain ⟨sema, ⟨_, _, rfl⟩, rfl⟩ := ran
  exact ⟨rfl, fun _ => rfl, fun _ => rfl, fun _ => rfl, rfl, rfl, rfl, rfl⟩

theorem upOpenInodesLock_core {s after : State} (ran : upOpenInodesLock s = .ok after) :
    SameCore { s with openInodesLock := { s.openInodesLock with value := 1 } } after := by
  simp only [upOpenInodesLock, bind_ok, pure_ok, Prod.exists, Semaphore.up] at ran
  obtain ⟨sema, woken, ⟨_, _, same⟩, rfl⟩ := ran
  cases same
  exact ⟨rfl, fun _ => rfl, fun _ => rfl, fun _ => rfl, rfl, rfl, rfl, rfl⟩

theorem Inv.bound {s : State} (inv : Inv s) {t : Tid} (inside : s.place t ≠ .outside) : t < s.tasks := by
  by_contra high
  exact inside (inv.outside t (Nat.not_lt.mp high)).1

theorem Inv.no_reader {s : State} (inv : Inv s) (free : s.openInodesLock.value ≠ 0) (t : Tid) (p : Ptr) (iNo : Nat) :
    s.place t ≠ .openRead p iNo :=
  fun reads => free (inv.reading t p iNo reads).1

theorem Inv.count_pos {s : State} (inv : Inv s) {t : Tid} {p : Ptr} (member : p ∈ s.held t) :
    0 < (s.inode p).openCnts := by
  have bound : t < s.tasks := by
    by_contra high
    rw [(inv.outside t (Nat.not_lt.mp high)).2] at member
    cases member
  have share : 0 < (s.held t).count p := List.count_pos_iff.mpr member
  have part : (s.held t).count p ≤ holders s p :=
    Finset.single_le_sum (f := fun u => (s.held u).count p) (fun u _ => Nat.zero_le _) (Finset.mem_range.mpr bound)
  rw [inv.counts p (inv.held t p member)]
  omega

theorem Inv.setValue {s : State} (inv : Inv s) (value : Nat)
    (quiet : ∀ t p iNo, s.place t ≠ .openRead p iNo) :
    Inv { s with openInodesLock := { s.openInodesLock with value := value } } :=
  { inv with reading := fun t p iNo reads => absurd reads (quiet t p iNo) }

theorem Inv.move {s : State} (inv : Inv s) (t : Tid) (place : Place) (bound : t < s.tasks)
    (plain : ∀ p iNo, place ≠ .openRead p iNo ∧ place ≠ .openCount p ∧ place ≠ .closeList p)
    (holds : ∀ p, place = .useLock p ∨ place = .useHold p ∨ place = .closeLock p → p ∈ s.held t) :
    Inv (s.setPlace t place) := by
  have older : ∀ u, (s.setPlace t place).place u = s.place u ∨ (s.setPlace t place).place u = place := by
    intro u
    simp only [State.setPlace_place]
    split
    · exact .inr rfl
    · exact .inl rfl
  have reads : ∀ u p iNo, (s.setPlace t place).place u = .openRead p iNo → s.place u = .openRead p iNo := by
    intro u p iNo here
    rcases older u with same | moved
    · exact same.symm.trans here
    · exact absurd (moved.symm.trans here) (plain p iNo).1
  have counts : ∀ u p, (s.setPlace t place).place u = .openCount p → s.place u = .openCount p := by
    intro u p here
    rcases older u with same | moved
    · exact same.symm.trans here
    · exact absurd (moved.symm.trans here) (plain p 0).2.1
  have closes : ∀ u p, (s.setPlace t place).place u = .closeList p → s.place u = .closeList p := by
    intro u p here
    rcases older u with same | moved
    · exact same.symm.trans here
    · exact absurd (moved.symm.trans here) (plain p 0).2.2
  constructor
  case outside =>
    intro u high
    have other : u ≠ t := by
      rintro rfl
      exact absurd bound (Nat.not_lt.mpr high)
    simpa [other, State.setPlace] using inv.outside u high
  case reading => exact fun u p iNo here => inv.reading u p iNo (reads u p iNo here)
  case oneReader => exact fun u v p q i j left right => inv.oneReader u v p q i j (reads u p i left) (reads v q j right)
  case nodup => exact inv.nodup
  case listed => exact inv.listed
  case unique => exact inv.unique
  case counting => exact fun u p here => inv.counting u p (counts u p here)
  case closing =>
    intro u p here
    obtain ⟨member, zero, alone⟩ := inv.closing u p (closes u p here)
    exact ⟨member, zero, fun v => ⟨fun counting => (alone v).1 (counts v p counting),
      fun closing => (alone v).2 (closes v p closing)⟩⟩
  case held => exact inv.held
  case inUse =>
    intro u p here
    simp only [State.setPlace_place] at here
    split at here
    · rename_i same
      rw [same]
      exact holds p here
    · exact inv.inUse u p here
  case counts => exact inv.counts

/-- A lookup that hits: the task has the inode in its hands and has not counted itself yet. -/
theorem Inv.hit {s : State} (inv : Inv s) {t : Tid} {p : Ptr} (bound : t < s.tasks)
    (member : p ∈ s.openInodes) (apart : ∀ u < s.tasks, s.place u ≠ .closeList p) :
    Inv (s.setPlace t (.openCount p)) := by
  have noClose : ∀ u, s.place u ≠ .closeList p := by
    intro u here
    exact apart u (inv.bound (by rw [here]; simp)) here
  constructor
  case outside =>
    intro u high
    have other : u ≠ t := by
      rintro rfl
      exact absurd bound (Nat.not_lt.mpr high)
    simpa [other, State.setPlace] using inv.outside u high
  case reading =>
    intro u q iNo here
    simp only [State.setPlace_place] at here
    split at here
    · cases here
    · exact inv.reading u q iNo here
  case oneReader =>
    intro u v q r i j left right
    simp only [State.setPlace_place] at left right
    split at left
    · cases left
    · split at right
      · cases right
      · exact inv.oneReader u v q r i j left right
  case nodup => exact inv.nodup
  case listed => exact inv.listed
  case unique => exact inv.unique
  case counting =>
    intro u q here
    simp only [State.setPlace_place] at here
    split at here
    · cases here
      exact member
    · exact inv.counting u q here
  case closing =>
    intro u q here
    simp only [State.setPlace_place] at here
    split at here
    · cases here
    · obtain ⟨inside, zero, alone⟩ := inv.closing u q here
      refine ⟨inside, zero, fun v => ?_⟩
      simp only [State.setPlace_place]
      split
      · refine ⟨?_, by simp⟩
        intro same
        cases same
        exact noClose u here
      · exact alone v
  case held => exact inv.held
  case inUse =>
    intro u q here
    simp only [State.setPlace_place] at here
    split at here
    · simp at here
    · exact inv.inUse u q here
  case counts => exact inv.counts

/-- A lookup that misses: a fresh block, and `open_inodes_lock` stays taken while the disk is read. -/
theorem Inv.miss {s : State} (inv : Inv s) {t : Tid} {p : Ptr} {iNo : Nat} (bound : t < s.tasks)
    (quiet : ∀ u q i, s.place u ≠ .openRead q i) (absent : ∀ q ∈ s.openInodes, (s.inode q).iNo ≠ iNo)
    (free : (s.inode p).live = false) :
    Inv (((takeOpenInodesLock s).setInode p fun inode => { inode with live := true }).setPlace t
      (.openRead p iNo)) := by
  have outsideList : p ∉ s.openInodes := by
    intro member
    rw [inv.listed p member] at free
    cases free
  have record : ∀ q ∈ s.openInodes, ((((takeOpenInodesLock s).setInode p fun inode =>
      { inode with live := true }).setPlace t (.openRead p iNo)).inode q) = s.inode q := by
    intro q member
    have other : q ≠ p := by
      rintro rfl
      exact outsideList member
    change ((takeOpenInodesLock s).setInode p fun inode => { inode with live := true }).inode q = s.inode q
    rw [State.setInode_inode, if_neg other]
    rfl
  constructor
  case outside =>
    intro u high
    have other : u ≠ t := by
      rintro rfl
      exact absurd bound (Nat.not_lt.mpr high)
    have old := inv.outside u high
    refine ⟨?_, old.2⟩
    simp only [State.setPlace_place, other, if_false]
    exact old.1
  case reading =>
    intro u q i here
    simp only [State.setPlace_place] at here
    split at here
    · cases here
      refine ⟨rfl, ?_, outsideList, ?_⟩
      · change (((takeOpenInodesLock s).setInode p fun inode => { inode with live := true }).inode p).live = true
        simp
      · intro r member
        rw [record r member]
        exact absent r member
    · exact absurd here (quiet u q i)
  case oneReader =>
    intro u v q r i j left right
    simp only [State.setPlace_place] at left right
    split at left
    · split at right
      · rename_i first second
        exact first.trans second.symm
      · exact absurd right (quiet v r j)
    · exact absurd left (quiet u q i)
  case nodup => exact inv.nodup
  case listed =>
    intro q member
    rw [record q member]
    exact inv.listed q member
  case unique =>
    intro q member r member' same
    rw [record q member, record r member'] at same
    exact inv.unique q member r member' same
  case counting =>
    intro u q here
    simp only [State.setPlace_place] at here
    split at here
    · cases here
    · exact inv.counting u q here
  case closing =>
    intro u q here
    simp only [State.setPlace_place] at here
    split at here
    · cases here
    · obtain ⟨inside, zero, alone⟩ := inv.closing u q here
      refine ⟨inside, by rw [record q inside]; exact zero, fun v => ?_⟩
      simp only [State.setPlace_place]
      split
      · simp
      · exact alone v
  case held => exact inv.held
  case inUse =>
    intro u q here
    simp only [State.setPlace_place] at here
    split at here
    · simp at here
    · exact inv.inUse u q here
  case counts =>
    intro q member
    rw [record q member]
    exact inv.counts q member

/-- The disk has answered: the new inode enters the cache, still uncounted. -/
theorem Inv.read {s : State} (inv : Inv s) {t : Tid} {p : Ptr} {iNo : Nat} (here : s.place t = .openRead p iNo) :
    Inv { ((s.setInode p fun _ => { iNo := iNo, openCnts := 0, inodeLock := ⟨1, []⟩, live := true }).setPlace t
        (.openCount p)) with
      openInodes := p :: s.openInodes, openInodesLock := { s.openInodesLock with value := 1 } } := by
  have bound := inv.bound (by rw [here]; simp : s.place t ≠ .outside)
  obtain ⟨_, _, fresh, absent⟩ := inv.reading t p iNo here
  let after : State := { ((s.setInode p fun _ =>
      { iNo := iNo, openCnts := 0, inodeLock := ⟨1, []⟩, live := true }).setPlace t (.openCount p)) with
    openInodes := p :: s.openInodes, openInodesLock := { s.openInodesLock with value := 1 } }
  have recordNew : after.inode p = { iNo := iNo, openCnts := 0, inodeLock := ⟨1, []⟩, live := true } := by
    simp [after, State.setPlace, State.setInode]
  have record : ∀ q ∈ s.openInodes, after.inode q = s.inode q := by
    intro q member
    have other : q ≠ p := by
      rintro rfl
      exact fresh member
    simp [after, State.setPlace, State.setInode, other]
  have place : ∀ u, after.place u = if u = t then .openCount p else s.place u := by
    intro u
    simp [after, State.setPlace, State.setInode, Function.update_apply]
  have quiet : ∀ u q i, after.place u ≠ .openRead q i := by
    intro u q i reads
    rw [place] at reads
    split at reads
    · cases reads
    · rename_i other
      exact other (inv.oneReader u t q p i iNo reads here)
  change Inv after
  constructor
  case outside =>
    intro u high
    have other : u ≠ t := by
      rintro rfl
      exact absurd bound (Nat.not_lt.mpr high)
    rw [place, if_neg other]
    exact inv.outside u high
  case reading => exact fun u q i reads => absurd reads (quiet u q i)
  case oneReader => exact fun u _ q _ i _ reads => absurd reads (quiet u q i)
  case nodup => exact List.nodup_cons.mpr ⟨fresh, inv.nodup⟩
  case listed =>
    intro q member
    rcases List.mem_cons.mp member with rfl | old
    · rw [recordNew]
    · rw [record q old]; exact inv.listed q old
  case unique =>
    intro q member r member' same
    rcases List.mem_cons.mp member with rfl | old
    · rcases List.mem_cons.mp member' with rfl | old'
      · rfl
      · rw [recordNew, record r old'] at same
        exact absurd same.symm (absent r old')
    · rcases List.mem_cons.mp member' with rfl | old'
      · rw [recordNew, record q old] at same
        exact absurd same (absent q old)
      · rw [record q old, record r old'] at same
        exact inv.unique q old r old' same
  case counting =>
    intro u q counts
    rw [place] at counts
    split at counts
    · cases counts
      exact List.mem_cons_self ..
    · exact List.mem_cons_of_mem _ (inv.counting u q counts)
  case closing =>
    intro u q closes
    rw [place] at closes
    split at closes
    · cases closes
    · obtain ⟨inside, zero, alone⟩ := inv.closing u q closes
      refine ⟨List.mem_cons_of_mem _ inside, by rw [record q inside]; exact zero, fun v => ?_⟩
      rw [place]
      split
      · refine ⟨?_, by simp⟩
        intro same
        cases same
        exact fresh inside
      · exact alone v
  case held => exact fun u q member => List.mem_cons_of_mem _ (inv.held u q member)
  case inUse =>
    intro u q uses
    rw [place] at uses
    split at uses
    · simp at uses
    · exact inv.inUse u q uses
  case counts =>
    intro q member
    rcases List.mem_cons.mp member with rfl | old
    · rw [recordNew]
      have none : holders after q = 0 := by
        refine Finset.sum_eq_zero fun u _ => ?_
        exact List.count_eq_zero.mpr fun member => fresh (inv.held u q member)
      simp [none]
    · rw [record q old]; exact inv.counts q old

/-- The task counts itself and returns from `inode_open` with the pointer. -/
theorem Inv.count {s : State} (inv : Inv s) {t : Tid} {p : Ptr} (here : s.place t = .openCount p) :
    Inv (((s.setInode p fun inode => { inode with openCnts := inode.openCnts + 1 }).setPlace t .outside).setHeld t
      (p :: s.held t)) := by
  have bound := inv.bound (by rw [here]; simp : s.place t ≠ .outside)
  have member := inv.counting t p here
  let after := ((s.setInode p fun inode => { inode with openCnts := inode.openCnts + 1 }).setPlace t .outside).setHeld t
    (p :: s.held t)
  have record : ∀ q, (after.inode q).iNo = (s.inode q).iNo ∧ (after.inode q).live = (s.inode q).live ∧
      (after.inode q).openCnts = (s.inode q).openCnts + if q = p then 1 else 0 := by
    intro q
    by_cases same : q = p
    · subst same
      simp [after, State.setHeld, State.setPlace, State.setInode]
    · simp [after, State.setHeld, State.setPlace, State.setInode, same]
  have place : ∀ u, after.place u = if u = t then .outside else s.place u := by
    intro u
    simp [after, State.setHeld, State.setPlace, State.setInode, Function.update_apply]
  have heldIs : ∀ u, after.held u = if u = t then p :: s.held t else s.held u := by
    intro u
    simp [after, State.setHeld, State.setPlace, State.setInode, Function.update_apply]
  have noClose : ∀ u, s.place u ≠ .closeList p := by
    intro u closes
    exact ((inv.closing u p closes).2.2 t).1 here
  change Inv after
  constructor
  case outside =>
    intro u high
    have other : u ≠ t := by
      rintro rfl
      exact absurd bound (Nat.not_lt.mpr high)
    rw [place, heldIs, if_neg other, if_neg other]
    exact inv.outside u high
  case reading =>
    intro u q i reads
    rw [place] at reads
    split at reads
    · cases reads
    · obtain ⟨value, live, outside, absent⟩ := inv.reading u q i reads
      refine ⟨value, by rw [(record q).2.1]; exact live, outside, ?_⟩
      intro r inside
      rw [(record r).1]
      exact absent r inside
  case oneReader =>
    intro u v q r i j left right
    rw [place] at left right
    split at left
    · cases left
    · split at right
      · cases right
      · exact inv.oneReader u v q r i j left right
  case nodup => exact inv.nodup
  case listed =>
    intro q inside
    rw [(record q).2.1]
    exact inv.listed q inside
  case unique =>
    intro q inside r inside' same
    rw [(record q).1, (record r).1] at same
    exact inv.unique q inside r inside' same
  case counting =>
    intro u q counts
    rw [place] at counts
    split at counts
    · cases counts
    · exact inv.counting u q counts
  case closing =>
    intro u q closes
    rw [place] at closes
    split at closes
    · cases closes
    · obtain ⟨inside, zero, alone⟩ := inv.closing u q closes
      have other : q ≠ p := by
        rintro rfl
        exact noClose u closes
      refine ⟨inside, by rw [(record q).2.2, if_neg other, zero]; rfl, fun v => ?_⟩
      rw [place]
      split
      · simp
      · exact alone v
  case held =>
    intro u q inside
    rw [heldIs] at inside
    split at inside
    · rcases List.mem_cons.mp inside with rfl | old
      · exact member
      · exact inv.held t q old
    · exact inv.held u q inside
  case inUse =>
    intro u q uses
    rw [place] at uses
    rw [heldIs]
    split at uses
    · simp at uses
    · rename_i other
      rw [if_neg other]
      exact inv.inUse u q uses
  case counts =>
    intro q inside
    rw [(record q).2.2, inv.counts q inside]
    have moved := Counting.sum_of_change (Finset.range s.tasks) (fun u => (s.held u).count q)
      (fun u => (after.held u).count q) (Finset.mem_range.mpr bound)
      (fun u _ other => by simp only [heldIs, if_neg other])
    simp only [heldIs, if_true, List.count_cons] at moved
    have total : holders after q = ∑ u ∈ Finset.range s.tasks, (if u = t then p :: s.held t else s.held u).count q := by
      simp only [holders, heldIs]
      rfl
    rw [total]
    simp only [holders]
    by_cases same : q = p
    · subst same
      simp only [beq_self_eq_true, if_true] at moved ⊢
      omega
    · have other : (p == q) = false := by simpa using Ne.symm same
      simp only [other, Bool.false_eq_true, if_false, same] at moved ⊢
      omega

def released (s : State) (t : Tid) (p : Ptr) (place : Place) : State :=
  ((s.setInode p fun inode => { inode with openCnts := inode.openCnts - 1 }).setHeld t ((s.held t).erase p)).setPlace t
    place

/-- The last reference leads to the unlinking of the inode, and nobody else may be after it then. -/
theorem Inv.release {s : State} (inv : Inv s) {t : Tid} {p : Ptr} {place : Place} (here : s.place t = .closeLock p)
    (choice : (place = .outside ∧ (s.inode p).openCnts ≠ 1) ∨ (place = .closeList p ∧ (s.inode p).openCnts = 1 ∧
      ∀ u < s.tasks, s.place u ≠ .openCount p)) : Inv (released s t p place) := by
  have bound := inv.bound (by rw [here]; simp : s.place t ≠ .outside)
  have holds := inv.inUse t p (.inr (.inr here))
  have member := inv.held t p holds
  have positive := inv.count_pos holds
  let after := released s t p place
  have record : ∀ q, (after.inode q).iNo = (s.inode q).iNo ∧ (after.inode q).live = (s.inode q).live ∧
      (after.inode q).openCnts = (s.inode q).openCnts - if q = p then 1 else 0 := by
    intro q
    by_cases same : q = p
    · subst same
      simp [after, released, State.setHeld, State.setPlace, State.setInode]
    · simp [after, released, State.setHeld, State.setPlace, State.setInode, same]
  have placeIs : ∀ u, after.place u = if u = t then place else s.place u := by
    intro u
    simp [after, released, State.setHeld, State.setPlace, State.setInode, Function.update_apply]
  have heldIs : ∀ u, after.held u = if u = t then (s.held t).erase p else s.held u := by
    intro u
    simp [after, released, State.setHeld, State.setPlace, State.setInode, Function.update_apply]
  have plain : (∀ q i, place ≠ .openRead q i) ∧ (∀ q, place ≠ .openCount q) ∧
      (∀ q, place ≠ .useLock q ∧ place ≠ .useHold q ∧ place ≠ .closeLock q) := by
    rcases choice with ⟨rfl, _⟩ | ⟨rfl, _⟩ <;> simp
  -- A close already under way on `p` would have found the count at zero, but this task still holds `p`.
  have noClose : ∀ u, s.place u ≠ .closeList p := by
    intro u closes
    have zero := (inv.closing u p closes).2.1
    omega
  change Inv after
  constructor
  case outside =>
    intro u high
    have other : u ≠ t := by
      rintro rfl
      exact absurd bound (Nat.not_lt.mpr high)
    rw [placeIs, heldIs, if_neg other, if_neg other]
    exact inv.outside u high
  case reading =>
    intro u q i reads
    rw [placeIs] at reads
    split at reads
    · exact absurd reads (plain.1 q i)
    · obtain ⟨value, live, outside, absent⟩ := inv.reading u q i reads
      refine ⟨value, by rw [(record q).2.1]; exact live, outside, ?_⟩
      intro r inside
      rw [(record r).1]
      exact absent r inside
  case oneReader =>
    intro u v q r i j left right
    rw [placeIs] at left right
    split at left
    · exact absurd left (plain.1 q i)
    · split at right
      · exact absurd right (plain.1 r j)
      · exact inv.oneReader u v q r i j left right
  case nodup => exact inv.nodup
  case listed =>
    intro q inside
    rw [(record q).2.1]
    exact inv.listed q inside
  case unique =>
    intro q inside r inside' same
    rw [(record q).1, (record r).1] at same
    exact inv.unique q inside r inside' same
  case counting =>
    intro u q counts
    rw [placeIs] at counts
    split at counts
    · exact absurd counts (plain.2.1 q)
    · exact inv.counting u q counts
  case closing =>
    intro u q closes
    rw [placeIs] at closes
    split at closes
    · rename_i same
      subst same
      rcases choice with ⟨rfl, _⟩ | ⟨rfl, one, quiet⟩
      · cases closes
      · cases closes
        refine ⟨member, by rw [(record p).2.2, if_pos rfl, one]; rfl, fun v => ?_⟩
        rw [placeIs]
        split
        · rename_i other
          exact ⟨by simp, fun _ => other⟩
        · refine ⟨?_, fun other => absurd other (noClose v)⟩
          intro counts
          exact quiet v (inv.bound (by rw [counts]; simp)) counts
    · obtain ⟨inside, zero, alone⟩ := inv.closing u q closes
      have other : q ≠ p := by
        rintro rfl
        exact noClose u closes
      refine ⟨inside, by rw [(record q).2.2, if_neg other, zero]; rfl, fun v => ?_⟩
      rw [placeIs]
      split
      · refine ⟨plain.2.1 q, ?_⟩
        intro same
        rcases choice with ⟨rfl, _⟩ | ⟨rfl, _⟩
        · cases same
        · cases same
          exact absurd rfl other
      · exact alone v
  case held =>
    intro u q inside
    rw [heldIs] at inside
    split at inside
    · exact inv.held t q (List.mem_of_mem_erase inside)
    · exact inv.held u q inside
  case inUse =>
    intro u q uses
    rw [placeIs] at uses
    rw [heldIs]
    split at uses
    · obtain ⟨first, second, third⟩ := plain.2.2 q
      simp [first, second, third] at uses
    · rename_i other
      rw [if_neg other]
      exact inv.inUse u q uses
  case counts =>
    intro q inside
    rw [(record q).2.2, inv.counts q inside]
    have moved := Counting.sum_of_change (Finset.range s.tasks) (fun u => (s.held u).count q)
      (fun u => (after.held u).count q) (Finset.mem_range.mpr bound)
      (fun u _ other => by simp only [heldIs, if_neg other])
    simp only [heldIs, if_true] at moved
    have total : holders after q =
        ∑ u ∈ Finset.range s.tasks, (if u = t then (s.held t).erase p else s.held u).count q := by
      simp only [holders, heldIs]
      rfl
    rw [total]
    simp only [holders]
    by_cases same : q = p
    · subst same
      have share : 0 < (s.held t).count q := List.count_pos_iff.mpr holds
      rw [List.count_erase_self] at moved
      simp only [if_true]
      omega
    · rw [List.count_erase_of_ne same] at moved
      simp only [same, if_false]
      omega

theorem Inv.unlink {s : State} (inv : Inv s) {t : Tid} {p : Ptr} (here : s.place t = .closeList p)
    (quiet : ∀ u q i, s.place u ≠ .openRead q i) (value : Nat) :
    Inv { ((s.setInode p fun inode => { inode with live := false }).setPlace t .outside) with
      openInodes := s.openInodes.erase p, openInodesLock := { s.openInodesLock with value := value } } := by
  have bound := inv.bound (by rw [here]; simp : s.place t ≠ .outside)
  obtain ⟨member, zero, alone⟩ := inv.closing t p here
  let after : State := { ((s.setInode p fun inode => { inode with live := false }).setPlace t .outside) with
    openInodes := s.openInodes.erase p, openInodesLock := { s.openInodesLock with value := value } }
  have members : ∀ q, q ∈ after.openInodes ↔ q ≠ p ∧ q ∈ s.openInodes := fun q => inv.nodup.mem_erase_iff
  have record : ∀ q, q ≠ p → after.inode q = s.inode q := by
    intro q other
    simp [after, State.setPlace, State.setInode, other]
  have place : ∀ u, after.place u = if u = t then .outside else s.place u := by
    intro u
    simp [after, State.setPlace, State.setInode, Function.update_apply]
  have unheld : ∀ u, p ∉ s.held u := by
    intro u holds
    have positive := inv.count_pos holds
    omega
  change Inv after
  constructor
  case outside =>
    intro u high
    have other : u ≠ t := by
      rintro rfl
      exact absurd bound (Nat.not_lt.mpr high)
    rw [place, if_neg other]
    exact inv.outside u high
  case reading =>
    intro u q i reads
    rw [place] at reads
    split at reads
    · cases reads
    · exact absurd reads (quiet u q i)
  case oneReader =>
    intro u v q r i j left
    rw [place] at left
    split at left
    · cases left
    · exact absurd left (quiet u q i)
  case nodup => exact inv.nodup.erase _
  case listed =>
    intro q inside
    obtain ⟨other, old⟩ := (members q).mp inside
    rw [record q other]
    exact inv.listed q old
  case unique =>
    intro q inside r inside' same
    obtain ⟨other, old⟩ := (members q).mp inside
    obtain ⟨other', old'⟩ := (members r).mp inside'
    rw [record q other, record r other'] at same
    exact inv.unique q old r old' same
  case counting =>
    intro u q counts
    rw [place] at counts
    split at counts
    · cases counts
    · refine (members q).mpr ⟨?_, inv.counting u q counts⟩
      rintro rfl
      exact (alone u).1 counts
  case closing =>
    intro u q closes
    rw [place] at closes
    split at closes
    · cases closes
    · rename_i different
      obtain ⟨inside, zero', alone'⟩ := inv.closing u q closes
      have other : q ≠ p := by
        rintro rfl
        exact different ((alone u).2 closes)
      refine ⟨(members q).mpr ⟨other, inside⟩, by rw [record q other]; exact zero', fun v => ?_⟩
      rw [place]
      split
      · simp
      · exact alone' v
  case held =>
    intro u q inside
    refine (members q).mpr ⟨?_, inv.held u q inside⟩
    rintro rfl
    exact unheld u inside
  case inUse =>
    intro u q uses
    rw [place] at uses
    split at uses
    · simp at uses
    · exact inv.inUse u q uses
  case counts =>
    intro q inside
    obtain ⟨other, old⟩ := (members q).mp inside
    rw [record q other]
    exact inv.counts q old

theorem inv_call {s after : State} {c : Call} (inv : Inv s) (ran : step s (.call c) = .ok after) : Inv after := by
  simp only [step] at ran
  split at ran
  · cases ran
  · rename_i t current
    simp only [bind_ok, offer_ok, pure_ok, Bool.and_eq_true, decide_eq_true_eq] at ran
    obtain ⟨_, ⟨bound, _⟩, place, called, rfl⟩ := ran
    cases c with
    | inodeOpen iNo =>
      simp only [callPlace, bind_ok, offer_ok, pure_ok] at called
      obtain ⟨_, _, rfl⟩ := called
      exact inv.move t _ bound (by simp) (by simp)
    | use p =>
      simp only [callPlace, bind_ok, offer_ok, pure_ok, List.contains_iff_mem] at called
      obtain ⟨_, holds, rfl⟩ := called
      exact inv.move t _ bound (by simp) (by simpa using holds)
    | inodeClose p =>
      simp only [callPlace, bind_ok, offer_ok, pure_ok, List.contains_iff_mem] at called
      obtain ⟨_, holds, rfl⟩ := called
      exact inv.move t _ bound (by simp) (by simpa using holds)

theorem findInode_none {s : State} {iNo : Nat} (missing : findInode s iNo = none) :
    ∀ q ∈ s.openInodes, (s.inode q).iNo ≠ iNo := by
  intro q inside
  have := List.find?_eq_none.mp missing q inside
  simpa using this

theorem inv_lookup {s after : State} {t : Tid} {iNo fresh : Nat} (inv : Inv s) (here : s.place t = .openLookup iNo)
    (apart : Apart s (.openLookup iNo)) (ran : goLookup s t iNo fresh = .ok after) : Inv after := by
  have bound := inv.bound (by rw [here]; simp : s.place t ≠ .outside)
  unfold goLookup at ran
  split at ran
  · exact inv.same (waitOpenInodesLock_core ran)
  · rename_i free
    have quiet := inv.no_reader free
    split at ran
    · rename_i p found
      have member := List.mem_of_find?_eq_some found
      have hit := (inv.setValue 1 quiet).hit (t := t) bound member (apart free p found)
      exact hit.same (upOpenInodesLock_core ran)
    · rename_i missing
      simp only [bind_ok, offer_ok, pure_ok, Bool.not_eq_true'] at ran
      obtain ⟨_, unused, rfl⟩ := ran
      have missed := inv.miss bound quiet (findInode_none missing) unused
      exact missed.same ⟨rfl, fun _ => rfl, fun _ => rfl, fun _ => rfl, rfl, rfl, rfl, rfl⟩

theorem inv_count {s after : State} {t : Tid} {p : Ptr} (inv : Inv s) (here : s.place t = .openCount p)
    (ran : goCount s t p = .ok after) : Inv after := by
  unfold goCount at ran
  split at ran
  · exact inv.same (waitInodeLock_core ran)
  · have taken := inv.same (takeInodeLock_core s p)
    have counted := taken.count (t := t) here
    exact counted.same (upInodeLock_core ran)

theorem inv_use {s after : State} {t : Tid} {p : Ptr} {io : Bool} (inv : Inv s) (here : s.place t = .useLock p)
    (ran : goUse s t p io = .ok after) : Inv after := by
  have bound := inv.bound (by rw [here]; simp : s.place t ≠ .outside)
  have holds := inv.inUse t p (.inl here)
  unfold goUse at ran
  split at ran
  · exact inv.same (waitInodeLock_core ran)
  · have taken := inv.same (takeInodeLock_core s p)
    have holdsTaken : p ∈ (takeInodeLock s p).held t := holds
    have moved := taken.move t (.useHold p) bound (by simp) (by simpa using holdsTaken)
    cases ran
    cases io with
    | true => exact moved.same ⟨rfl, fun _ => rfl, fun _ => rfl, fun _ => rfl, rfl, rfl, rfl, rfl⟩
    | false => exact moved

theorem inv_hold {s after : State} {t : Tid} {p : Ptr} {io : Bool} (inv : Inv s) (here : s.place t = .useHold p)
    (ran : goHold s t p io = .ok after) : Inv after := by
  have bound := inv.bound (by rw [here]; simp : s.place t ≠ .outside)
  unfold goHold at ran
  split at ran
  · cases ran
    exact inv.same ⟨rfl, fun _ => rfl, fun _ => rfl, fun _ => rfl, rfl, rfl, rfl, rfl⟩
  · exact (inv.move t .outside bound (by simp) (by simp)).same (upInodeLock_core ran)

theorem inv_close {s after : State} {t : Tid} {p : Ptr} (inv : Inv s) (here : s.place t = .closeLock p)
    (apart : Apart s (.closeLock p)) (ran : goClose s t p = .ok after) : Inv after := by
  unfold goClose at ran
  split at ran
  · exact inv.same (waitInodeLock_core ran)
  · rename_i free
    have apartFree := apart free
    have core := takeInodeLock_core s p
    have taken := inv.same core
    have count : (((takeInodeLock s p).setInode p fun inode =>
        { inode with openCnts := inode.openCnts - 1 }).inode p).openCnts = (s.inode p).openCnts - 1 := by
      simp [core.openCnts p]
    dsimp only at ran
    split at ran
    · rename_i zero
      cases ran
      have one : (s.inode p).openCnts = 1 := by
        have same : (((takeInodeLock s p).setInode p fun inode =>
            { inode with openCnts := inode.openCnts - 1 }).inode p).openCnts = 0 := zero
        omega
      exact taken.release here (.inr ⟨rfl, by rw [core.openCnts]; exact one, apartFree one⟩)
    · rename_i more
      have other : (s.inode p).openCnts ≠ 1 := by
        intro one
        apply more
        change (((takeInodeLock s p).setInode p fun inode =>
            { inode with openCnts := inode.openCnts - 1 }).inode p).openCnts = 0
        omega
      exact (taken.release here (.inl ⟨rfl, by rw [core.openCnts]; exact other⟩)).same (upInodeLock_core ran)

theorem inv_unlink {s after : State} {t : Tid} {p : Ptr} (inv : Inv s) (here : s.place t = .closeList p)
    (ran : goUnlink s t p = .ok after) : Inv after := by
  unfold goUnlink at ran
  split at ran
  · exact inv.same (waitOpenInodesLock_core ran)
  · rename_i free
    simp only [bind_ok] at ran
    obtain ⟨unlocked, first, second⟩ := ran
    have core := upOpenInodesLock_core first
    have unlinked := inv.unlink here (inv.no_reader free) 1
    have iNo : ∀ q, (unlocked.inode q).iNo = (s.inode q).iNo := core.iNo
    have openCnts : ∀ q, (unlocked.inode q).openCnts = (s.inode q).openCnts := core.openCnts
    have live : ∀ q, (unlocked.inode q).live = (s.inode q).live := core.live
    have place : unlocked.place = s.place := core.place
    refine (unlinked.same ?_).same (upInodeLock_core second)
    refine ⟨core.tasks, ?_, ?_, ?_, core.openInodes, core.value, ?_, core.held⟩
    · intro q
      by_cases same : q = p
      · subst same
        simpa [State.setPlace] using iNo q
      · simpa [State.setPlace, same] using iNo q
    · intro q
      by_cases same : q = p
      · subst same
        simpa [State.setPlace] using openCnts q
      · simpa [State.setPlace, same] using openCnts q
    · intro q
      by_cases same : q = p
      · subst same
        simp [State.setPlace]
      · simpa [State.setPlace, same] using live q
    · funext u
      simp only [State.setPlace_place]
      by_cases same : u = t
      · simp [same]
      · simp [same, State.setInode, place]

theorem inv_step (s : State) (op : Op) (after : State) (inv : Inv s) (apart : NoCrossing s op)
    (ran : step s op = .ok after) : Inv after := by
  cases op with
  | call c => exact inv_call inv ran
  | go fresh io =>
    simp only [step] at ran
    split at ran
    · cases ran
    · rename_i t current
      have apartHere : Apart s (s.place t) := apart t current
      unfold goTask at ran
      split at ran
      · cases ran
      · rename_i iNo here
        rw [here] at apartHere
        exact inv_lookup inv here apartHere ran
      · rename_i p iNo here
        split at ran
        · cases ran
          exact inv.same ⟨rfl, fun _ => rfl, fun _ => rfl, fun _ => rfl, rfl, rfl, rfl, rfl⟩
        · exact (inv.read here).same (upOpenInodesLock_core ran)
      · rename_i p here
        exact inv_count inv here ran
      · rename_i p here
        exact inv_use inv here ran
      · rename_i p here
        exact inv_hold inv here ran
      · rename_i p here
        rw [here] at apartHere
        exact inv_close inv here apartHere ran
      · rename_i p here
        exact inv_unlink inv here ran
  | diskDone t =>
    simp only [step, bind_ok, pure_ok] at ran
    obtain ⟨_, _, rfl⟩ := ran
    exact inv.same ⟨rfl, fun _ => rfl, fun _ => rfl, fun _ => rfl, rfl, rfl, rfl, rfl⟩
  | dispatch =>
    simp only [step] at ran
    split at ran
    · cases ran
      exact inv.same ⟨rfl, fun _ => rfl, fun _ => rfl, fun _ => rfl, rfl, rfl, rfl, rfl⟩
    · cases ran

theorem inv_start (tasks : Nat) (current : Tid) (ready : List Tid) : Inv (start tasks current ready) := by
  constructor
  case outside => exact fun _ _ => ⟨rfl, rfl⟩
  case nodup => exact List.nodup_nil
  all_goals simp [start]

/-- The inode cache is safe under every interleaving in which the windows of `inode_open` and `inode_close` on one
    inode do not cross. -/
theorem cache_safe (tasks : Nat) (current : Tid) (ready : List Tid) (ops : List Op) (s : State)
    (apart : Meets step NoCrossing (start tasks current ready) ops)
    (ran : run step (start tasks current ready) ops = .ok s) : CacheSafe s :=
  (run_invariant inv_step (inv_start tasks current ready) apart ran).safe

/-- Two tasks share inode 5; task 1 waits for its lock while task 0 reads and then closes it; task 0 still holds it. -/
def sharedRun : List Op :=
  [.call (.inodeOpen 5), .go 0 false, .dispatch, .call (.inodeOpen 5), .go 0 false, .diskDone 0, .dispatch,
    .go 0 false, .go 0 false, .call (.use 0), .go 0 true, .dispatch, .go 0 false, .go 0 false, .diskDone 0, .dispatch,
    .go 0 false, .call (.inodeOpen 7), .go 1 false, .dispatch, .go 0 false, .call (.inodeClose 0), .go 0 false]

theorem cache_safe_shared : ∃ s, run step (start 2 0 [1]) sharedRun = .ok s ∧ CacheSafe s := by
  have evaluated : endsIn (run step (start 2 0 [1]) sharedRun)
      (fun s => decide (0 ∈ s.held 0 ∧ s.held 1 = [] ∧ (s.inode 0).openCnts = 1)) = true := by
    decide +kernel
  have apart : meetsCheck step NoCrossing (start 2 0 [1]) sharedRun = true := by
    decide +kernel
  obtain ⟨s, ran, _⟩ := exists_of_endsIn evaluated
  exact ⟨s, ran, cache_safe 2 0 [1] sharedRun s (meets_of_check apart) ran⟩

/-- Task 1 finds inode 5 and waits for its lock; task 0, the only holder, finishes reading and closes it. -/
def crossingRun : List Op :=
  [.call (.inodeOpen 5), .go 0 false, .dispatch, .call (.inodeOpen 5), .go 0 false, .diskDone 0, .dispatch,
    .go 0 false, .go 0 false, .call (.use 0), .go 0 true, .dispatch, .go 0 false, .go 0 false, .diskDone 0, .dispatch,
    .go 0 false, .call (.inodeClose 0), .go 0 false, .go 0 false, .call (.inodeOpen 7), .go 1 false, .dispatch,
    .go 0 false]

theorem freed_inode_returned : ∃ s, run step (start 2 0 [1]) crossingRun = .ok s ∧ ¬ CacheSafe s := by
  have evaluated : endsIn (run step (start 2 0 [1]) crossingRun)
      (fun s => decide (0 ∈ s.held 1 ∧ 0 ∉ s.openInodes ∧ (s.inode 0).live = false)) = true := by
    decide +kernel
  obtain ⟨s, ran, found⟩ := exists_of_endsIn evaluated
  simp only [decide_eq_true_eq] at found
  exact ⟨s, ran, fun safe => found.2.1 (safe.cached 1 0 found.1).1⟩

end RecoverOs.Fs.Cache
