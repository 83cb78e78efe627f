import RecoverOs.Memory.Regions
import RecoverOs.Memory.Translation

namespace RecoverOs.Memory

open Bytes Lib Forest Transition

variable {m middle after : Ram} {roots pending : Nat → Prop} {root page vaddr q r x v : Nat} {path p : List Nat}

/-- The byte that an address is mapped to. -/
def sight (m : Ram) (root v : Nat) : Option UInt8 :=
  (translate m.phys root v).map fun page => m.phys page (v % pgSize)

structure OwnPages (m : Ram) (root : Nat) : Prop where
  tree : UserTree m root
  alone : ∀ path path' x, At m (fun r => r = root) root path x → At m (fun r => r = root) root path' x → path = path'

theorem MemInv.ownPages {s : Machine} {t : Tid} (inv : MemInv s) (kept : s.Kept t) : OwnPages s.ram (s.proc t).pml4 where
  tree := inv.userTree kept
  alone := by
    intro path path' x left right
    have wider : ∀ path, At s.ram (fun r => r = (s.proc t).pml4) (s.proc t).pml4 path x →
        At s.ram s.Root (s.proc t).pml4 path x :=
      fun path place => ⟨kept.isRoot, place.allowed, place.reached⟩
    exact (inv.tree.separate _ path _ path' x (wider path left) (wider path' right)).2

theorem own_translate (user : v < 2 ^ 47) :
    translate m.phys root v = some x ↔ At m (fun r => r = root) root (pathOf v) x :=
  @translate_at m (fun r => r = root) root v x rfl user

theorem Orderly.drop {pending' : Nat → Prop} (orderly : Orderly roots pending m) (fewer : ∀ x, pending' x → pending x) :
    Orderly roots pending' m where
  size := orderly.size
  alone := orderly.alone
  marked := orderly.marked
  waits := fun x waiting => orderly.waits x (fewer x waiting)
  zero := fun x small state => orderly.zero x small (state.imp id (fewer x))

theorem Orderly.levels_data {paddr cnt : Nat} (orderly : Orderly roots pending m) (isRoot : roots root)
    (user : vaddr < 2 ^ 47) (inside : cnt ≤ 3) (ran : mapLevels m root vaddr paddr cnt = .ok after)
    (leaf : At m roots r p x) (last : p.length = 4) : after.phys x = m.phys x := by
  induction cnt generalizing after with
  | zero =>
    cases ran
    rfl
  | succ cnt ih =>
    simp only [mapLevels, bind_ok] at ran
    obtain ⟨middle, first, turn⟩ := ran
    obtain ⟨tables, grown⟩ := orderly.levels isRoot user (by omega) first
    obtain ⟨page, place⟩ := grown.here
    rw [← ih (by omega) first]
    rcases mapLevel_cases (by omega) place.reached turn with ⟨_, _, rfl⟩ | ⟨_, ⟨_, q, allocated, alloc, rfl⟩ | ⟨deep, _⟩⟩
    · rfl
    · have other : x ≠ page := by
        intro same
        have length := pathOf_take_length vaddr (show cnt ≤ 4 by omega)
        obtain ⟨_, steps⟩ := grown.orderly.alone root _ r p page place (same ▸ grown.keeps r p x leaf) (by omega)
        rw [steps] at length
        omega
      rw [setEntry_phys allocated page _ _ other, (grown.orderly.alloc alloc).2.1]
    · omega

/-- What `page_map` does for the tasks: an address that is not mapped gets a page of zeros, and one that is mapped stays
    where it is. -/
structure PageAdded (m after : Ram) (root vaddr : Nat) : Prop where
  tree : UserTree after root
  leaves : ∃ q, m.pool.bits q = false ∧ (∀ i < pgSize, after.phys q i = 0) ∧ ∀ p x, p.length = 4 →
    (At after (fun r => r = root) root p x ↔ At m (fun r => r = root) root p x ∨
      (translate m.phys root vaddr = none ∧ x = q ∧ p = pathOf vaddr))
  data : ∀ p x, p.length = 4 → At m (fun r => r = root) root p x → after.phys x = m.phys x

theorem pageMap_added (tree : UserTree m root) (user : vaddr < 2 ^ 47) (ran : pageMap m root vaddr = .ok after) :
    PageAdded m after root vaddr := by
  simp only [pageMap, bind_ok, Prod.exists] at ran
  obtain ⟨q, allocated, alloc, ran⟩ := ran
  obtain ⟨allocOrderly, same, unmarked, _, _⟩ := tree.alloc alloc
  have before : ∀ r p x, At allocated (fun r => r = root) r p x ↔ At m (fun r => r = root) r p x := by
    intro r p x
    rw [At, At, same]
  rw [mapLevels, bind_ok] at ran
  obtain ⟨filled, levels, last⟩ := ran
  obtain ⟨tables, grown⟩ := allocOrderly.levels rfl user (Nat.le_refl 3) levels
  obtain ⟨page, place⟩ := grown.here
  have whole : (pathOf vaddr).take 3 ++ [pageEntryIdx vaddr (3 - 3)] = pathOf vaddr := (pathOf_take vaddr (by decide)).symm
  have allowed : UserPath ((pathOf vaddr).take 3 ++ [pageEntryIdx vaddr (3 - 3)]) := by
    rw [whole]
    exact pathOf_user user
  have leaves : ∀ p x, p.length = 4 → (At filled (fun r => r = root) root p x ↔ At m (fun r => r = root) root p x) := by
    intro p x length
    rw [grown.below (by omega) (Nat.le_refl 3), before]
  have data : ∀ p x, p.length = 4 → At m (fun r => r = root) root p x → filled.phys x = m.phys x := by
    intro p x length leaf
    rw [allocOrderly.levels_data rfl user (Nat.le_refl 3) levels ((before root p x).mpr leaf) length, same]
  have waiting : (fun x => False ∨ x = q) q := .inr rfl
  obtain ⟨small, _, unplaced⟩ := grown.orderly.waits q waiting
  have zero := grown.orderly.zero q small (.inr waiting)
  have found : translate m.phys root vaddr = child filled.phys page (pageEntryIdx vaddr (3 - 3)) := by
    rw [← grown.last_entry user place, same]
  rcases mapLevel_cases (by decide) place.reached last with ⟨x, present, rfl⟩ | ⟨free, ⟨deep, _⟩ | ⟨_, rfl⟩⟩
  · refine ⟨grown.orderly.drop fun _ => False.elim, ⟨q, unmarked, zero, ?_⟩, data⟩
    intro p y length
    rw [leaves p y length, found, present]
    simp
  · exact absurd deep (by decide)
  · obtain ⟨linkOrderly, places⟩ := grown.orderly.link waiting place allowed free
    rw [whole] at places
    have isNew : ∀ p x, p.length = 4 → At m (fun r => r = root) root p x → x ≠ page := by
      intro p x length leaf same
      have kept := (leaves p x length).mpr leaf
      have short := pathOf_take_length vaddr (show 3 ≤ 4 by decide)
      obtain ⟨_, steps⟩ := grown.orderly.alone root _ root p page place (same ▸ kept) (by omega)
      rw [steps] at short
      omega
    have apart : q ≠ page := fun same => unplaced root _ (same ▸ place)
    refine ⟨linkOrderly.drop fun _ => False.elim, ⟨q, unmarked, ?_, ?_⟩, ?_⟩
    · intro i bound
      rw [setEntry_phys filled page _ _ apart]
      exact zero i bound
    · intro p y length
      rw [places, leaves p y length, found, free]
      simp
    · intro p x length leaf
      rw [setEntry_phys filled page _ _ (isNew p x length leaf), data p x length leaf]

theorem sight_at (user : v < 2 ^ 47) (leaf : At m (fun r => r = root) root (pathOf v) page) :
    sight m root v = some (m.phys page (v % pgSize)) := by
  rw [sight, (own_translate user).mpr leaf]
  rfl

theorem sight_none (unmapped : translate m.phys root v = none) : sight m root v = none := by
  rw [sight, unmapped]
  rfl

theorem PageAdded.sight (added : PageAdded m after root vaddr) (userPage : vaddr < 2 ^ 47)
    (user : v < 2 ^ 47) : sight after root v =
      if v / pgSize = vaddr / pgSize ∧ sight m root v = none then some 0 else sight m root v := by
  obtain ⟨q, _, zero, leaves⟩ := added.leaves
  cases found : translate m.phys root v with
  | some x =>
    have leaf := (own_translate user).mp found
    have kept := (leaves (pathOf v) x rfl).mpr (.inl leaf)
    rw [sight_at user kept, sight_at user leaf, added.data _ x rfl leaf, if_neg]
    intro both
    cases both.2
  | none =>
    rw [sight_none found]
    by_cases here : v / pgSize = vaddr / pgSize
    · have fresh := (leaves (pathOf v) q rfl).mpr (.inr ⟨by rw [translate, ← pathOf_congr here]; exact found, rfl,
        pathOf_congr here⟩)
      rw [if_pos ⟨here, rfl⟩, sight_at user fresh, zero _ (Nat.mod_lt _ (by decide))]
    · rw [if_neg fun both => here both.1]
      apply sight_none
      cases found' : translate after.phys root v with
      | none => rfl
      | some x =>
        rcases (leaves (pathOf v) x rfl).mp ((own_translate user).mp found') with old | ⟨_, _, steps⟩
        · rw [(own_translate user).mpr old] at found
          cases found
        · exact absurd (pathOf_inj user userPage steps) here

theorem OwnPages.added (own : OwnPages m root) (added : PageAdded m after root vaddr) : OwnPages after root where
  tree := added.tree
  alone := by
    intro path path' x left right
    by_cases table : path.length < 4
    · exact (added.tree.alone root path root path' x left right table).2
    by_cases table' : path'.length < 4
    · exact (added.tree.alone root path' root path x right left table').2.symm
    have length : path.length = 4 := Nat.le_antisymm left.allowed.1 (Nat.le_of_not_lt table)
    have length' : path'.length = 4 := Nat.le_antisymm right.allowed.1 (Nat.le_of_not_lt table')
    obtain ⟨q, unmarked, _, leaves⟩ := added.leaves
    have taken : ∀ p, ¬ At m (fun r => r = root) root p q := by
      intro p place
      rw [own.tree.marked root p q place] at unmarked
      cases unmarked
    rcases (leaves path x length).mp left with old | ⟨_, rfl, steps⟩
    · rcases (leaves path' x length').mp right with old' | ⟨_, rfl, _⟩
      · exact own.alone path path' x old old'
      · exact absurd old (taken path)
    · rcases (leaves path' x length').mp right with old' | ⟨_, _, steps'⟩
      · exact absurd old' (taken path')
      · rw [steps, steps']

/-- The bytes at the addresses that are mapped. -/
abbrev View := Nat → Option UInt8

def View.reserve (view : View) (low high : Nat) : View := fun v =>
  if low ≤ v ∧ v < high then some ((view v).getD 0) else view v

def View.put (view : View) (vaddr : Nat) (data : Buffer) (cnt : Nat) : View := fun v =>
  if vaddr ≤ v ∧ v < vaddr + cnt then some (data (v - vaddr)) else view v

def pageEnd (vaddr size : Nat) : Nat := pgSize * ((vaddr + size + pgSize - 1) / pgSize)

def View.load (view : View) (seg : Segment) : View :=
  (view.reserve (pageStart seg.vaddr) (pageEnd seg.vaddr seg.memsz)).put seg.vaddr seg.data seg.nbyte

def View.loadAll (view : View) (segments : List Segment) : View := segments.foldl View.load view

theorem View.reserve_reserve (view : View) {low middle high : Nat} (first : low ≤ middle) (second : middle ≤ high) :
    (view.reserve low middle).reserve middle high = view.reserve low high := by
  funext v
  simp only [View.reserve]
  by_cases below : v < middle
  · rw [if_neg fun both => absurd both.1 (Nat.not_le.mpr below)]
    by_cases inside : low ≤ v
    · rw [if_pos ⟨inside, below⟩, if_pos ⟨inside, by omega⟩]
    · rw [if_neg fun both => inside both.1, if_neg fun both => inside both.1]
  · have outside : ¬ (low ≤ v ∧ v < middle) := fun both => below both.2
    simp only [if_neg outside]
    by_cases inside : v < high
    · rw [if_pos ⟨by omega, inside⟩, if_pos ⟨by omega, inside⟩]
    · rw [if_neg fun both => inside both.2, if_neg fun both => inside both.2]

theorem View.reserve_same (view : View) (low : Nat) : view.reserve low low = view := by
  funext v
  exact if_neg fun both => absurd both.1 (Nat.not_le.mpr both.2)

theorem View.put_succ (view : View) (vaddr : Nat) (data : Buffer) (cnt : Nat) :
    view.put vaddr data (cnt + 1) = Function.update (view.put vaddr data cnt) (vaddr + cnt) (some (data cnt)) := by
  funext v
  by_cases here : v = vaddr + cnt
  · rw [here, Function.update_self, View.put, if_pos (by omega), Nat.add_sub_cancel_left]
  · rw [Function.update_of_ne here, View.put, View.put]
    by_cases inside : vaddr ≤ v ∧ v < vaddr + cnt
    · rw [if_pos inside, if_pos (by omega)]
    · rw [if_neg inside, if_neg (by omega)]

/-- The bytes that are read for an address: a later segment replaces what an earlier one has brought. -/
def delivered : List Segment → Nat → Option UInt8
  | [], _ => none
  | seg :: rest, v =>
    match delivered rest v with
    | some byte => some byte
    | none => if seg.vaddr ≤ v ∧ v < seg.vaddr + seg.nbyte then some (seg.data (v - seg.vaddr)) else none

theorem View.load_mapped {view : View} {byte : UInt8} (seg : Segment) (mapped : view v = some byte) : view.load seg v =
    some (if seg.vaddr ≤ v ∧ v < seg.vaddr + seg.nbyte then seg.data (v - seg.vaddr) else byte) := by
  have kept : view.reserve (pageStart seg.vaddr) (pageEnd seg.vaddr seg.memsz) v = some byte := by
    rw [View.reserve, mapped]
    split
    · rfl
    · rfl
  rw [View.load, View.put, kept]
  split
  · rfl
  · rfl

theorem View.loadAll_mapped {view : View} {byte : UInt8} {segments : List Segment} (mapped : view v = some byte) :
    view.loadAll segments v = some ((delivered segments v).getD byte) := by
  induction segments generalizing view byte with
  | nil => exact mapped
  | cons seg rest ih =>
    have first := View.load_mapped seg mapped
    rw [View.loadAll, List.foldl_cons, ← View.loadAll, ih first, delivered]
    cases delivered rest v with
    | some later => rfl
    | none =>
      split
      · rfl
      · rfl

def Segment.pages (seg : Segment) : Nat × Nat := (pageStart seg.vaddr, pageEnd seg.vaddr seg.memsz)

theorem Segment.inPages {seg : Segment} (inside : seg.vaddr ≤ v ∧ v < seg.vaddr + seg.memsz) :
    seg.pages.1 ≤ v ∧ v < seg.pages.2 := by
  simp only [Segment.pages, pageStart, pageEnd, pgSize]
  omega

theorem View.load_outside (view : View) {seg : Segment} (outside : ¬ (seg.pages.1 ≤ v ∧ v < seg.pages.2)) :
    view.load seg v = view v := by
  have short := seg.short
  rw [View.load, View.put, if_neg fun both => outside (Segment.inPages ⟨both.1, by omega⟩)]
  exact if_neg outside

theorem View.load_congr {view view' : View} (seg : Segment) (same : view v = view' v) :
    view.load seg v = view'.load seg v := by
  simp only [View.load, View.put, View.reserve, same]

theorem View.loadAll_outside (view : View) {segments : List Segment}
    (outside : ∀ seg ∈ segments, ¬ (seg.pages.1 ≤ v ∧ v < seg.pages.2)) : view.loadAll segments v = view v := by
  induction segments generalizing view with
  | nil => rfl
  | cons seg rest ih =>
    rw [View.loadAll, List.foldl_cons, ← View.loadAll,
      ih (view.load seg) fun seg' member => outside seg' (List.mem_cons_of_mem _ member)]
    exact view.load_outside (outside seg (List.mem_cons_self ..))

theorem View.loadAll_apart {view : View} {segments : List Segment} {seg : Segment}
    (apart : segments.Pairwise fun left right => Clear left.pages right.pages) (member : seg ∈ segments)
    (inside : seg.pages.1 ≤ v ∧ v < seg.pages.2) : view.loadAll segments v = view.load seg v := by
  induction segments generalizing view with
  | nil => cases member
  | cons first rest ih =>
    obtain ⟨clear, later⟩ := List.pairwise_cons.mp apart
    rw [View.loadAll, List.foldl_cons, ← View.loadAll]
    rcases List.mem_cons.mp member with rfl | among
    · apply View.loadAll_outside
      exact fun seg' member' both => (clear_iff _ _).mp (clear seg' member') v ⟨inside, both⟩
    · rw [ih later among]
      apply View.load_congr
      exact view.load_outside fun both => (clear_iff _ _).mp (clear seg among) v ⟨both, inside⟩

structure Shows (m : Ram) (root : Nat) (view : View) : Prop where
  own : OwnPages m root
  sees : ∀ v < defaultStack, sight m root v = view v

theorem OwnPages.shows (own : OwnPages m root) : Shows m root (sight m root) := ⟨own, fun _ _ => rfl⟩

theorem Shows.pageMap {view : View} (seen : Shows m root view) (aligned : vaddr % pgSize = 0) (user : vaddr < 2 ^ 47)
    (ran : pageMap m root vaddr = .ok after) : Shows after root (view.reserve vaddr (vaddr + pgSize)) := by
  have added := pageMap_added seen.own.tree user ran
  refine ⟨seen.own.added added, ?_⟩
  intro v inside
  have page : v / pgSize = vaddr / pgSize ↔ vaddr ≤ v ∧ v < vaddr + pgSize := by
    simp only [pgSize] at aligned ⊢
    omega
  rw [added.sight user inside, seen.sees v inside, View.reserve]
  by_cases here : v / pgSize = vaddr / pgSize
  · rw [if_pos (page.mp here)]
    cases view v with
    | none => rw [if_pos ⟨here, rfl⟩, Option.getD_none]
    | some byte =>
      have present : some byte ≠ none := Option.some_ne_none byte
      rw [if_neg fun both => present both.2]
      rfl
  · rw [if_neg fun both => here (page.mpr both), if_neg fun both => here both.1]

theorem Shows.mapPages {view : View} {start cnt : Nat} (seen : Shows m root view) (aligned : start % pgSize = 0)
    (user : start + cnt * pgSize ≤ defaultStack) (ran : mapPages m root start cnt = .ok after) :
    Shows after root (view.reserve start (start + cnt * pgSize)) := by
  induction cnt generalizing after with
  | zero =>
    cases ran
    rw [Nat.zero_mul, Nat.add_zero, View.reserve_same]
    exact seen
  | succ cnt ih =>
    simp only [Memory.mapPages, bind_ok] at ran
    obtain ⟨middle, first, last⟩ := ran
    rw [Nat.succ_mul, ← Nat.add_assoc] at user
    have onPage : (start + cnt * pgSize) % pgSize = 0 := by
      rw [Nat.add_mul_mod_self_right]
      exact aligned
    have low : start + cnt * pgSize < 2 ^ 47 := Nat.lt_of_lt_of_le (Nat.lt_add_of_pos_right (by decide)) user
    have next := (ih (Nat.le_trans (Nat.le_add_right _ _) user) first).pageMap onPage low last
    rw [View.reserve_reserve view (Nat.le_add_right _ _) (Nat.le_add_right _ _)] at next
    rw [Nat.succ_mul, ← Nat.add_assoc]
    exact next

theorem OwnPages.write (own : OwnPages m root) (leaf : At m (fun r => r = root) root path q) (last : path.length = 4)
    (buf : Buffer) : OwnPages { m with phys := Function.update m.phys q buf } root ∧ ∀ p x,
      At { m with phys := Function.update m.phys q buf } (fun r => r = root) root p x ↔
        At m (fun r => r = root) root p x := by
  have places : ∀ r p x, At { m with phys := Function.update m.phys q buf } (fun r => r = root) r p x ↔
      At m (fun r => r = root) r p x := by
    intro r p x
    apply place_congr userPath_closed
    intro r' p' i y allowed there
    have short : p'.length ≠ 4 := by
      have length := allowed.1
      rw [List.length_append, List.length_singleton] at length
      omega
    have top : r' = root := there.isRoot
    subst top
    have other : y ≠ q := fun same => short ((own.alone p' path q (same ▸ there) leaf) ▸ last)
    exact child_congr (Function.update_of_ne other _ _) i
  refine ⟨⟨⟨own.tree.size, ?_, ?_, fun _ => False.elim, ?_⟩, ?_⟩, places root⟩
  · intro r p r' p' x left right table
    exact own.tree.alone r p r' p' x ((places r p x).mp left) ((places r' p' x).mp right) table
  · exact fun r p x there => own.tree.marked r p x ((places r p x).mp there)
  · intro x small state i bound
    have other : x ≠ q := by
      intro here
      rcases state with unmarked | waiting
      · rw [here, own.tree.marked root path q leaf] at unmarked
        cases unmarked
      · exact waiting
    simp only [Function.update_of_ne other]
    exact own.tree.zero x small state i bound
  · intro p p' x left right
    exact own.alone p p' x ((places root p x).mp left) ((places root p' x).mp right)

theorem Shows.setByte {view : View} {byte : UInt8} (seen : Shows m root view) (user : vaddr < defaultStack)
    (found : translate m.phys root vaddr = some q) :
    Shows (setByte m q (vaddr % pgSize) byte) root (Function.update view vaddr (some byte)) := by
  have leaf := (own_translate user).mp found
  obtain ⟨own, places⟩ := seen.own.write leaf rfl (Function.update (m.phys q) (vaddr % pgSize) byte)
  refine ⟨own, ?_⟩
  intro v inside
  cases found' : translate m.phys root v with
  | none =>
    have other : v ≠ vaddr := by
      intro same
      rw [same, found] at found'
      cases found'
    rw [Function.update_of_ne other, ← seen.sees v inside, sight_none found']
    apply sight_none
    cases now : translate (Memory.setByte m q (vaddr % pgSize) byte).phys root v with
    | none => rfl
    | some x =>
      rw [(own_translate inside).mpr ((places (pathOf v) x).mp ((own_translate inside).mp now))] at found'
      cases found'
  | some x =>
    have leaf' := (own_translate inside).mp found'
    have kept : At (Memory.setByte m q (vaddr % pgSize) byte) (fun r => r = root) root (pathOf v) x :=
      (places (pathOf v) x).mpr leaf'
    rw [sight_at inside kept, Memory.setByte]
    by_cases here : v = vaddr
    · subst here
      rw [found] at found'
      cases found'
      simp only [Function.update_self]
    · rw [Function.update_of_ne here, ← seen.sees v inside, sight_at inside leaf']
      by_cases page : x = q
      · subst page
        have number := pathOf_inj inside user (seen.own.alone _ _ x leaf' leaf)
        have offset : v % pgSize ≠ vaddr % pgSize := by
          intro same
          apply here
          rw [← Nat.div_add_mod v pgSize, ← Nat.div_add_mod vaddr pgSize, number, same]
        simp only [Function.update_self, Function.update_of_ne offset]
      · simp only [Function.update_of_ne page]

theorem Shows.storeByte {s after : Machine} {t : Tid} {view : View} {byte : UInt8}
    (seen : Shows s.ram (s.proc t).pml4 view) (user : vaddr < defaultStack) (mapped : view vaddr ≠ none)
    (ran : storeByte s t vaddr byte = .ok after) :
    Shows after.ram (s.proc t).pml4 (Function.update view vaddr (some byte)) := by
  cases found : translate s.ram.phys (s.proc t).pml4 vaddr with
  | none =>
    rw [← seen.sees vaddr user, sight_none found] at mapped
    exact absurd rfl mapped
  | some q =>
    simp only [Memory.storeByte, access, found, ok_bind] at ran
    split at ran
    · cases ran
      exact seen.setByte user found
    · cases ran

theorem Shows.storeBytes {s after : Machine} {t : Tid} {view : View} {data : Buffer} {cnt : Nat}
    (seen : Shows s.ram (s.proc t).pml4 view) (user : vaddr + cnt ≤ defaultStack)
    (mapped : ∀ i < cnt, view (vaddr + i) ≠ none) (ran : storeBytes s t vaddr data cnt = .ok after) :
    Shows after.ram (s.proc t).pml4 (view.put vaddr data cnt) := by
  induction cnt generalizing after with
  | zero =>
    cases ran
    have same : view.put vaddr data 0 = view := funext fun v => if_neg (by omega)
    rw [same]
    exact seen
  | succ cnt ih =>
    simp only [Memory.storeBytes, bind_ok] at ran
    obtain ⟨middle, first, last⟩ := ran
    have before := ih (by omega) (fun i less => mapped i (by omega)) first
    have table : (middle.proc t).pml4 = (s.proc t).pml4 := by rw [storeBytes_others first]
    rw [View.put_succ, ← table]
    rw [← table] at before
    apply before.storeByte (by omega) _ last
    rw [View.put, if_neg (by omega)]
    exact mapped cnt (Nat.lt_succ_self cnt)

theorem pageEnd_spec {size : Nat} (user : vaddr + size ≤ defaultStack) :
    pageStart vaddr + pgCnt vaddr size * pgSize = pageEnd vaddr size ∧ vaddr + size ≤ pageEnd vaddr size ∧
      pageEnd vaddr size ≤ defaultStack := by
  rw [pgCnt_eq user]
  simp only [pageStart, pageEnd, pgSize, defaultStack] at user ⊢
  omega

theorem Shows.segmentLoad {s after : Machine} {t : Tid} {view : View} {seg : Segment}
    (seen : Shows s.ram (s.proc t).pml4 view) (user : seg.vaddr + seg.memsz ≤ defaultStack)
    (ran : segmentLoad s t seg = .ok after) : Shows after.ram (s.proc t).pml4 (view.load seg) := by
  obtain ⟨last, whole, inside⟩ := pageEnd_spec user
  simp only [Memory.segmentLoad, bind_ok] at ran
  obtain ⟨ram, map, store⟩ := ran
  have aligned : pageStart seg.vaddr % pgSize = 0 := by
    simp only [pageStart, pgSize]
    omega
  have low : pageStart seg.vaddr ≤ seg.vaddr := Nat.sub_le _ _
  have mapped := seen.mapPages aligned (by rw [last]; exact inside) map
  rw [last] at mapped
  have short := seg.short
  apply Shows.storeBytes (s := { s with ram := ram }) mapped (by omega) _ store
  intro i less
  rw [View.reserve, if_pos (by omega)]
  exact Option.some_ne_none _

theorem Shows.loadSegments {s after : Machine} {t : Tid} {view : View} {loadIdx : Nat} {segments : List Segment}
    (seen : Shows s.ram (s.proc t).pml4 view) (user : ∀ seg ∈ segments, seg.vaddr + seg.memsz ≤ defaultStack)
    (ran : loadSegments s t loadIdx segments = .ok after) :
    Shows after.ram (s.proc t).pml4 (view.loadAll segments) := by
  induction segments generalizing s view loadIdx with
  | nil =>
    cases ran
    exact seen
  | cons seg rest ih =>
    simp only [Memory.loadSegments, bind_ok] at ran
    obtain ⟨loaded, load, ran⟩ := ran
    have first := seen.segmentLoad (user seg (List.mem_cons_self ..)) load
    split at ran
    · cases ran
    · have table : (loaded.proc t).pml4 = (s.proc t).pml4 := by rw [segmentLoad_others load]
      rw [← table] at first ⊢
      have more := ih (s := loaded.setSpace t _) (by
        simpa only [Machine.setSpace, Machine.modify, Function.update_self] using first)
        (fun seg' member => user seg' (List.mem_cons_of_mem _ member)) ran
      simp only [Machine.setSpace, Machine.modify, Function.update_self] at more
      exact more

theorem Shows.sysExecv {s after : Machine} {t : Tid} {view : View} {image : Image}
    (seen : Shows s.ram (s.proc t).pml4 view) (user : ∀ seg ∈ image.segments, seg.vaddr + seg.memsz ≤ defaultStack)
    (ran : sysExecv s t image = .ok after) : Shows after.ram (s.proc t).pml4 (view.loadAll image.segments) := by
  simp only [Memory.sysExecv, bind_ok, pure_ok] at ran
  obtain ⟨loaded, load, rfl⟩ := ran
  have shown := Shows.loadSegments (s := s.setSpace t _) (by
    simpa only [Machine.setSpace, Machine.modify, Function.update_self] using seen) user load
  simp only [Machine.setSpace, Machine.modify, Function.update_self] at shown
  split
  · exact shown
  · exact shown

end RecoverOs.Memory
