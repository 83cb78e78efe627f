import RecoverOs.Memory.Accounting
import RecoverOs.Memory.Room

namespace RecoverOs.Memory

open Bytes Lib Forest Transition

variable {s after : Machine} {buf : Buffer} {t u : Tid} {v a q : Nat}

/-- The byte of task `t` at `vaddr`; a page of the heap that it has not touched reads as zeros. -/
def byteAt (s : Machine) (t : Tid) (vaddr : Nat) : UInt8 :=
  match translate s.ram.phys (s.proc t).pml4 vaddr with
  | some page => s.ram.phys page (vaddr % pgSize)
  | none => 0

theorem byteAt_some (found : translate s.ram.phys (s.proc t).pml4 v = some q) :
    byteAt s t v = s.ram.phys q (v % pgSize) := by
  rw [byteAt, found]

theorem byteAt_none (unmapped : translate s.ram.phys (s.proc t).pml4 v = none) : byteAt s t v = 0 := by
  rw [byteAt, unmapped]

theorem Maps.byteAt_here (maps : Maps s after t v buf) (kept : s.Kept t) (userV : v < 2 ^ 47)
    (same : pathOf a = pathOf v) : (∃ q, translate after.ram.phys (after.proc t).pml4 a = some q) ∧
      byteAt after t a = buf (a % pgSize) := by
  obtain ⟨q, found, content⟩ := maps.here kept userV
  rw [← translate_congr same, ← maps.extension.proc] at found
  refine ⟨⟨q, found⟩, ?_⟩
  rw [byteAt_some found]
  exact content _ (Nat.mod_lt _ (by decide))

theorem Maps.byteAt_elsewhere (maps : Maps s after t v buf) (kept : s.Kept u) (user : a < 2 ^ 47)
    (other : ¬ ((s.proc u).pml4 = (s.proc t).pml4 ∧ pathOf a = pathOf v)) :
    translate after.ram.phys (after.proc u).pml4 a = translate s.ram.phys (s.proc u).pml4 a ∧
      byteAt after u a = byteAt s u a := by
  have same : translate after.ram.phys (after.proc u).pml4 a = translate s.ram.phys (s.proc u).pml4 a := by
    rw [maps.extension.proc]
    exact maps.elsewhere kept.isRoot user other
  refine ⟨same, ?_⟩
  cases found : translate s.ram.phys (s.proc u).pml4 a with
  | none => rw [byteAt_none found, byteAt_none (same.trans found)]
  | some q =>
    rw [byteAt_some found, byteAt_some (same.trans found)]
    rw [(maps.extension.keeps _ kept.isRoot a user q found).2]

theorem byteAt_setByte {byte : UInt8} (inv : MemInv s) (kept : s.Kept t) (keptU : s.Kept u) (userV : v < 2 ^ 47)
    (user : a < 2 ^ 47) (found : translate s.ram.phys (s.proc t).pml4 v = some q) :
    byteAt { s with ram := setByte s.ram q (v % pgSize) byte } u a =
      if (s.proc u).pml4 = (s.proc t).pml4 ∧ a = v then byte else byteAt s u a := by
  have pages := (inv.write_same kept userV found (Function.update (s.ram.phys q) (v % pgSize) byte)).pages
    _ keptU.isRoot a user
  cases there : translate s.ram.phys (s.proc u).pml4 a with
  | none =>
    have other : ¬ ((s.proc u).pml4 = (s.proc t).pml4 ∧ a = v) := by
      intro both
      rw [both.1, both.2, found] at there
      cases there
    rw [if_neg other, byteAt_none there]
    exact byteAt_none (pages.trans there)
  | some x =>
    have written : byteAt { s with ram := setByte s.ram q (v % pgSize) byte } u a =
        (setByte s.ram q (v % pgSize) byte).phys x (a % pgSize) := byteAt_some (pages.trans there)
    rw [written, byteAt_some there]
    by_cases here : x = q
    · subst here
      obtain ⟨roots, paths⟩ := inv.tree.separate _ _ _ _ x ((translate_at keptU.isRoot user).mp there)
        ((translate_at kept.isRoot userV).mp found)
      have page := pathOf_inj user userV paths
      simp only [setByte, Function.update_self, Function.update_apply]
      by_cases offset : a % pgSize = v % pgSize
      · have equal : a = v := by
          simp only [pgSize] at page offset
          omega
        rw [if_pos offset, if_pos ⟨roots, equal⟩]
      · rw [if_neg offset, if_neg]
        intro both
        exact offset (by rw [both.2])
    · simp only [setByte, Function.update_of_ne here]
      rw [if_neg]
      intro both
      rw [both.1, both.2, found] at there
      exact here (Option.some.inj there).symm

def Region (space : AddrSpace) (vaddr : Nat) : Prop := inRg space vaddr ∨ inHeap space vaddr

instance (space : AddrSpace) (vaddr : Nat) : Decidable (Region space vaddr) :=
  inferInstanceAs (Decidable (inRg space vaddr ∨ inHeap space vaddr))

/-- The range and the page of `vaddr` have an address in common. -/
def meetsPage (start size vaddr : Nat) : Prop :=
  max start (pageStart vaddr) < min (wrap (start + size)) (pageStart vaddr + pgSize)

instance (start size vaddr : Nat) : Decidable (meetsPage start size vaddr) :=
  inferInstanceAs (Decidable (max start (pageStart vaddr) < min (wrap (start + size)) (pageStart vaddr + pgSize)))

/-- The page of `vaddr` has a byte of a segment or of the stack. -/
def SharesPage (space : AddrSpace) (vaddr : Nat) : Prop :=
  (∃ i < 4, meetsPage (space.vaddr i) (space.filesz i) vaddr) ∨
    meetsPage (defaultStack - globalStackSize) globalStackSize vaddr

instance (space : AddrSpace) (vaddr : Nat) : Decidable (SharesPage space vaddr) :=
  inferInstanceAs (Decidable ((∃ i < 4, meetsPage (space.vaddr i) (space.filesz i) vaddr) ∨
    meetsPage (defaultStack - globalStackSize) globalStackSize vaddr))

theorem meetsPage_of {start size : Nat} (inside : inRange start size v) (same : a / pgSize = v / pgSize) :
    meetsPage start size a := by
  obtain ⟨low, high⟩ := inside
  simp only [meetsPage, pageStart, pgSize] at same ⊢
  omega

theorem sharesPage_of {space : AddrSpace} (inside : inRg space v) (same : a / pgSize = v / pgSize) :
    SharesPage space a := by
  rcases inside with ⟨i, less, segment⟩ | stack
  · exact .inl ⟨i, less, meetsPage_of segment same⟩
  · exact .inr (meetsPage_of stack same)

variable {s1 : Machine} {p c : Tid}

/-- If an access of the child at `vaddr` gets a new page of the heap, the parent had only zeros in that page. -/
def FaultFits (s1 : Machine) (p c : Tid) (s : Machine) (vaddr : Nat) : Prop :=
  translate s.ram.phys (s.proc c).pml4 vaddr = none → ¬ inRg (s1.proc p).addrSpace vaddr →
    ∀ i < pgSize, Region (s1.proc p).addrSpace (pageStart vaddr + i) → byteAt s1 p (pageStart vaddr + i) = 0

instance (s1 : Machine) (p c : Tid) (s : Machine) (vaddr : Nat) : Decidable (FaultFits s1 p c s vaddr) :=
  inferInstanceAs (Decidable (translate s.ram.phys (s.proc c).pml4 vaddr = none → ¬ inRg (s1.proc p).addrSpace vaddr →
    ∀ i < pgSize, Region (s1.proc p).addrSpace (pageStart vaddr + i) → byteAt s1 p (pageStart vaddr + i) = 0))

/-- The parent does not change a byte in a page that the child is still to copy. -/
def StoreFits (s1 : Machine) (p c : Tid) (s : Machine) (vaddr : Nat) (byte : UInt8) : Prop :=
  translate s.ram.phys (s.proc c).pml4 vaddr = none → Region (s1.proc p).addrSpace vaddr →
    SharesPage (s1.proc p).addrSpace vaddr → byteAt s p vaddr = byte

instance (s1 : Machine) (p c : Tid) (s : Machine) (vaddr : Nat) (byte : UInt8) :
    Decidable (StoreFits s1 p c s vaddr byte) :=
  inferInstanceAs (Decidable (translate s.ram.phys (s.proc c).pml4 vaddr = none →
    Region (s1.proc p).addrSpace vaddr → SharesPage (s1.proc p).addrSpace vaddr → byteAt s p vaddr = byte))

def KeepsSnapshot (s1 : Machine) (p c : Tid) (s : Machine) : Tid × MemOp → Prop
  | (t, .store vaddr byte) => (t = p ∧ StoreFits s1 p c s vaddr byte) ∨ (t = c ∧ FaultFits s1 p c s vaddr)
  | (t, .fault vaddr) => t = p ∨ (t = c ∧ FaultFits s1 p c s vaddr)
  | (t, .brk brk) => BrkKeeps s t brk ∧
      (t = p ∨ (t = c ∧ (brk < (s1.proc p).addrSpace.heapStart ∨ (s1.proc p).addrSpace.heapEnd ≤ brk)))
  | _ => False

instance (s1 : Machine) (p c : Tid) (s : Machine) (op : Tid × MemOp) : Decidable (KeepsSnapshot s1 p c s op) :=
  match op with
  | (t, .store vaddr byte) =>
    inferInstanceAs (Decidable ((t = p ∧ StoreFits s1 p c s vaddr byte) ∨ (t = c ∧ FaultFits s1 p c s vaddr)))
  | (t, .fault vaddr) => inferInstanceAs (Decidable (t = p ∨ (t = c ∧ FaultFits s1 p c s vaddr)))
  | (t, .brk brk) => inferInstanceAs (Decidable (BrkKeeps s t brk ∧
      (t = p ∨ (t = c ∧ (brk < (s1.proc p).addrSpace.heapStart ∨ (s1.proc p).addrSpace.heapEnd ≤ brk)))))
  | (_, .pageMap _) | (_, .pageUnmap _) | (_, .clone ..) | (_, .execv _) | (_, .exit) | (_, .wait) => .isFalse id

/-- The child has the byte of the snapshot at `a`, or will copy it from the parent, or will get a page of zeros. -/
structure Snapshot (s1 : Machine) (p c : Tid) (a : Nat) (s : Machine) : Prop where
  mem : MemInv s
  keptP : s.Kept p
  keptC : s.Kept c
  apart : (s.proc p).pml4 ≠ (s.proc c).pml4
  fromP : (s.proc c).parentTask = p
  own : (s1.proc p).addrSpace.heapStart ≠ 0
  spaceP : ∃ e, (s.proc p).addrSpace = { (s1.proc p).addrSpace with heapEnd := e }
  spaceC : ∃ e, (s.proc c).addrSpace = { (s1.proc p).addrSpace with heapEnd := e } ∧
    (e = (s1.proc p).addrSpace.heapEnd ∨ ((s1.proc p).addrSpace.heapEnd ≤ e ∧ e ≤ defaultStack))
  segments : ∀ v < 2 ^ 47, inRg (s1.proc p).addrSpace v → translate s.ram.phys (s.proc p).pml4 v ≠ none
  source : SharesPage (s1.proc p).addrSpace a → translate s.ram.phys (s.proc c).pml4 a = none →
    byteAt s p a = byteAt s1 p a
  copied : translate s.ram.phys (s.proc c).pml4 a ≠ none → byteAt s c a = byteAt s1 p a

theorem Snapshot.inRg_parent (snap : Snapshot s1 p c a s) (v : Nat) :
    inRg (s.proc p).addrSpace v ↔ inRg (s1.proc p).addrSpace v := by
  obtain ⟨e, same⟩ := snap.spaceP
  rw [same]
  rfl

theorem Snapshot.inRg_child (snap : Snapshot s1 p c a s) (v : Nat) :
    inRg (s.proc c).addrSpace v ↔ inRg (s1.proc p).addrSpace v := by
  obtain ⟨e, same, _⟩ := snap.spaceC
  rw [same]
  rfl

theorem Snapshot.grow (snap : Snapshot s1 p c a s) (inv : MemInv after) (ext : Extends s after)
    (source : SharesPage (s1.proc p).addrSpace a → translate after.ram.phys (after.proc c).pml4 a = none →
      byteAt after p a = byteAt s1 p a)
    (copied : translate after.ram.phys (after.proc c).pml4 a ≠ none → byteAt after c a = byteAt s1 p a) :
    Snapshot s1 p c a after where
  mem := inv
  keptP := ext.kept snap.keptP
  keptC := ext.kept snap.keptC
  apart := by
    rw [ext.proc]
    exact snap.apart
  fromP := by
    rw [ext.proc]
    exact snap.fromP
  own := snap.own
  spaceP := by
    rw [ext.proc]
    exact snap.spaceP
  spaceC := by
    rw [ext.proc]
    exact snap.spaceC
  segments := by
    intro v user inside
    rw [ext.proc]
    obtain ⟨q, found⟩ := Option.ne_none_iff_exists'.mp (snap.segments v user inside)
    rw [(ext.keeps _ snap.keptP.isRoot v user q found).1]
    exact Option.some_ne_none q
  source := source
  copied := copied

theorem Snapshot.child_fault (snap : Snapshot s1 p c a s) (user : a < 2 ^ 47) (userV : v < 2 ^ 47)
    (inside : Region (s1.proc p).addrSpace a) (unmapped : translate s.ram.phys (s.proc c).pml4 v = none)
    (fits : FaultFits s1 p c s v) (ran : intrPageHandle s c v = .ok after) : Snapshot s1 p c a after := by
  have start : a / pgSize = v / pgSize → a = pageStart v + a % pgSize := by
    intro same
    simp only [pageStart, pgSize] at same ⊢
    omega
  have away : ∀ buf, Maps s after c v buf → translate after.ram.phys (after.proc p).pml4 a =
      translate s.ram.phys (s.proc p).pml4 a ∧ byteAt after p a = byteAt s p a :=
    fun buf maps => maps.byteAt_elsewhere snap.keptP user fun both => snap.apart both.1
  -- Either `a` is on another page than `v`, or the new page has the byte of the snapshot at `a`.
  have settle : ∀ buf, Maps s after c v buf → (pathOf a = pathOf v → buf (a % pgSize) = byteAt s1 p a) →
      Snapshot s1 p c a after := by
    intro buf maps right
    apply snap.grow (maps.inv snap.mem) maps.extension
    · intro shares absent
      rw [(away buf maps).2]
      apply snap.source shares
      by_cases same : pathOf a = pathOf v
      · rw [translate_congr same]
        exact unmapped
      · rw [← (maps.byteAt_elsewhere snap.keptC user fun both => same both.2).1]
        exact absent
    · intro present
      by_cases same : pathOf a = pathOf v
      · rw [(maps.byteAt_here snap.keptC userV same).2]
        exact right same
      · obtain ⟨translation, bytes⟩ := maps.byteAt_elsewhere snap.keptC user fun both => same both.2
        rw [bytes]
        apply snap.copied
        rw [← translation]
        exact present
  rcases intrPageHandle_maps snap.mem snap.keptC userV unmapped ran with ⟨range, q, found, maps⟩ | ⟨outside, _, maps⟩
  · apply settle _ maps
    intro same
    rw [snap.fromP] at found
    have there : translate s.ram.phys (s.proc p).pml4 a = some q := (translate_congr same).trans found
    rw [← byteAt_some there]
    apply snap.source
    · exact sharesPage_of ((snap.inRg_child v).mp range) (pathOf_inj user userV same)
    · rw [translate_congr same]
      exact unmapped
  · apply settle _ maps
    intro same
    have page := start (pathOf_inj user userV same)
    have zero := fits unmapped (fun range => outside ((snap.inRg_child v).mpr range)) (a % pgSize)
      (Nat.mod_lt _ (by decide))
    rw [← page] at zero
    exact (zero inside).symm

theorem Snapshot.parent_fault (snap : Snapshot s1 p c a s) (user : a < 2 ^ 47) (userV : v < 2 ^ 47)
    (unmapped : translate s.ram.phys (s.proc p).pml4 v = none) (ran : intrPageHandle s p v = .ok after) :
    Snapshot s1 p c a after := by
  rcases intrPageHandle_maps snap.mem snap.keptP userV unmapped ran with ⟨range, _⟩ | ⟨_, _, maps⟩
  · exact absurd unmapped (snap.segments v userV ((snap.inRg_parent v).mp range))
  · obtain ⟨translation, bytes⟩ := maps.byteAt_elsewhere snap.keptC user fun both => snap.apart both.1.symm
    have still : byteAt after p a = byteAt s p a := by
      by_cases same : pathOf a = pathOf v
      · rw [(maps.byteAt_here snap.keptP userV same).2, byteAt_none ((translate_congr same).trans unmapped)]
      · exact (maps.byteAt_elsewhere snap.keptP user fun both => same both.2).2
    apply snap.grow (maps.inv snap.mem) maps.extension
    · intro shares absent
      rw [still]
      exact snap.source shares (translation.symm.trans absent)
    · intro present
      rw [bytes]
      apply snap.copied
      rw [← translation]
      exact present

theorem Snapshot.child_access (snap : Snapshot s1 p c a s) (user : a < 2 ^ 47) (userV : v < 2 ^ 47)
    (inside : Region (s1.proc p).addrSpace a) (fits : FaultFits s1 p c s v) (ran : access s c v = .ok after) :
    Snapshot s1 p c a after := by
  unfold Memory.access at ran
  split at ran
  · cases ran
    exact snap
  · rename_i unmapped
    exact snap.child_fault user userV inside unmapped fits ran

theorem Snapshot.parent_access (snap : Snapshot s1 p c a s) (user : a < 2 ^ 47) (userV : v < 2 ^ 47)
    (ran : access s p v = .ok after) : Snapshot s1 p c a after ∧ byteAt after p v = byteAt s p v ∧
      translate after.ram.phys (after.proc c).pml4 v = translate s.ram.phys (s.proc c).pml4 v := by
  unfold Memory.access at ran
  split at ran
  · cases ran
    exact ⟨snap, rfl, rfl⟩
  · rename_i unmapped
    refine ⟨snap.parent_fault user userV unmapped ran, ?_⟩
    rcases intrPageHandle_maps snap.mem snap.keptP userV unmapped ran with ⟨range, _⟩ | ⟨_, _, maps⟩
    · exact absurd unmapped (snap.segments v userV ((snap.inRg_parent v).mp range))
    · rw [(maps.byteAt_here snap.keptP userV rfl).2, byteAt_none unmapped]
      exact ⟨rfl, (maps.byteAt_elsewhere snap.keptC userV fun both => snap.apart both.1.symm).1⟩

theorem storeByte_cases {byte : UInt8} (ran : storeByte s t v byte = .ok after) :
    ∃ touched q, access s t v = .ok touched ∧ translate touched.ram.phys (touched.proc t).pml4 v = some q ∧
      after = { touched with ram := setByte touched.ram q (v % pgSize) byte } := by
  simp only [storeByte, bind_ok] at ran
  obtain ⟨touched, touch, ran⟩ := ran
  split at ran
  · rename_i q found
    split at ran
    · cases ran
      exact ⟨touched, q, touch, found, rfl⟩
    · cases ran
  · cases ran

theorem Snapshot.write {byte : UInt8} (snap : Snapshot s1 p c a s) (user : a < 2 ^ 47) (userV : v < 2 ^ 47)
    (kept : s.Kept t) (found : translate s.ram.phys (s.proc t).pml4 v = some q)
    (byParent : (s.proc p).pml4 = (s.proc t).pml4 → a = v → SharesPage (s1.proc p).addrSpace a →
      translate s.ram.phys (s.proc c).pml4 a = none → byte = byteAt s p a)
    (byChild : (s.proc c).pml4 = (s.proc t).pml4 → a ≠ v) :
    Snapshot s1 p c a { s with ram := setByte s.ram q (v % pgSize) byte } := by
  have pages := (snap.mem.write_same kept userV found (Function.update (s.ram.phys q) (v % pgSize) byte)).pages
  constructor
  case mem => exact snap.mem.write kept userV found _
  case keptP => exact snap.keptP
  case keptC => exact snap.keptC
  case apart => exact snap.apart
  case fromP => exact snap.fromP
  case own => exact snap.own
  case spaceP => exact snap.spaceP
  case spaceC => exact snap.spaceC
  case segments =>
    intro w userW range
    have same := pages _ snap.keptP.isRoot w userW
    exact fun wrong => snap.segments w userW range (same.symm.trans wrong)
  case source =>
    intro shares absent
    have unmapped := (pages _ snap.keptC.isRoot a user).symm.trans absent
    rw [byteAt_setByte snap.mem kept snap.keptP userV user found]
    split
    · rename_i both
      rw [byParent both.1 both.2 shares unmapped]
      exact snap.source shares unmapped
    · exact snap.source shares unmapped
  case copied =>
    intro present
    rw [byteAt_setByte snap.mem kept snap.keptC userV user found, if_neg fun both => byChild both.1 both.2]
    apply snap.copied
    exact fun wrong => present ((pages _ snap.keptC.isRoot a user).trans wrong)

theorem Snapshot.parent_store {byte : UInt8} (snap : Snapshot s1 p c a s) (user : a < 2 ^ 47) (userV : v < 2 ^ 47)
    (inside : Region (s1.proc p).addrSpace a) (fits : StoreFits s1 p c s v byte)
    (ran : storeByte s p v byte = .ok after) : Snapshot s1 p c a after := by
  obtain ⟨touched, q, touch, found, rfl⟩ := storeByte_cases ran
  obtain ⟨touchedSnap, bytes, translation⟩ := snap.parent_access user userV touch
  apply touchedSnap.write user userV touchedSnap.keptP found
  · intro _ here shares absent
    subst here
    rw [bytes]
    exact (fits (translation.symm.trans absent) inside shares).symm
  · exact fun same => absurd same.symm touchedSnap.apart

theorem Snapshot.child_store {byte : UInt8} (snap : Snapshot s1 p c a s) (user : a < 2 ^ 47) (userV : v < 2 ^ 47)
    (inside : Region (s1.proc p).addrSpace a) (fits : FaultFits s1 p c s v) (other : a ≠ v)
    (ran : storeByte s c v byte = .ok after) : Snapshot s1 p c a after := by
  obtain ⟨touched, q, touch, found, rfl⟩ := storeByte_cases ran
  have touchedSnap := snap.child_access user userV inside fits touch
  apply touchedSnap.write user userV touchedSnap.keptC found
  · exact fun same => absurd same touchedSnap.apart
  · exact fun _ => other

theorem byteAt_setSpace (s : Machine) (t u : Tid) (f : AddrSpace → AddrSpace) (v : Nat) :
    byteAt (s.setSpace t f) u v = byteAt s u v := by
  have ram : (s.setSpace t f).ram = s.ram := rfl
  rw [byteAt, byteAt, (setSpace_proc s t u f).1, ram]

theorem setSpace_other (s : Machine) (f : AddrSpace → AddrSpace) (other : u ≠ t) :
    (s.setSpace t f).proc u = s.proc u := by
  simp only [Machine.setSpace, Machine.modify, Function.update_of_ne other]

theorem setSpace_self (s : Machine) (t : Tid) (f : AddrSpace → AddrSpace) :
    ((s.setSpace t f).proc t).addrSpace = f (s.proc t).addrSpace := by
  simp only [Machine.setSpace, Machine.modify, Function.update_self]

theorem Snapshot.set_heap {e : Nat} (snap : Snapshot s1 p c a s)
    (high : t = c → (s1.proc p).addrSpace.heapEnd ≤ e ∧ e ≤ defaultStack) :
    Snapshot s1 p c a (s.setSpace t fun space => { space with heapEnd := e }) := by
  have tables := fun u => (setSpace_proc s t u fun space => { space with heapEnd := e }).1
  constructor
  case mem => exact snap.mem.setSpace t _
  case keptP => exact snap.keptP.setSpace t _
  case keptC => exact snap.keptC.setSpace t _
  case apart =>
    rw [tables, tables]
    exact snap.apart
  case fromP =>
    simp only [Machine.setSpace, Machine.modify, Function.update_apply]
    split
    · rename_i here
      rw [← here]
      exact snap.fromP
    · exact snap.fromP
  case own => exact snap.own
  case spaceP =>
    by_cases here : p = t
    · obtain ⟨_, same⟩ := snap.spaceP
      refine ⟨e, ?_⟩
      rw [← here, setSpace_self, same]
    · rw [setSpace_other s _ here]
      exact snap.spaceP
  case spaceC =>
    by_cases here : c = t
    · obtain ⟨_, same, _⟩ := snap.spaceC
      refine ⟨e, ?_, .inr (high here.symm)⟩
      rw [← here, setSpace_self, same]
    · rw [setSpace_other s _ here]
      exact snap.spaceC
  case segments =>
    intro w userW range
    rw [tables]
    exact snap.segments w userW range
  case source =>
    intro shares absent
    rw [tables] at absent
    rw [byteAt_setSpace]
    exact snap.source shares absent
  case copied =>
    intro present
    rw [tables] at present
    rw [byteAt_setSpace]
    exact snap.copied present

theorem Snapshot.brk_call {brk : Nat} {result : Int} (snap : Snapshot s1 p c a s) (keeps : BrkKeeps s t brk)
    (two : t = p ∨ (t = c ∧ (brk < (s1.proc p).addrSpace.heapStart ∨ (s1.proc p).addrSpace.heapEnd ≤ brk)))
    (ran : sysBrk s t brk = .ok (result, after)) : Snapshot s1 p c a after := by
  rcases sysBrk_keeps keeps ran with rfl | ⟨owner, found, _, low, high, rfl⟩
  · exact snap
  · have start : (s.proc t).addrSpace.heapStart = (s1.proc p).addrSpace.heapStart := by
      rcases two with rfl | ⟨rfl, _⟩
      · obtain ⟨e, same⟩ := snap.spaceP
        rw [same]
      · obtain ⟨e, same, _⟩ := snap.spaceC
        rw [same]
    have self : owner = t := by
      have nonzero : (s.proc t).addrSpace.heapStart ≠ 0 := by
        rw [start]
        exact snap.own
      rw [brkOwner, if_pos nonzero] at found
      cases found
      rfl
    subst self
    apply snap.set_heap
    intro child
    have bound : brk ≤ defaultStack := Nat.le_trans high (Nat.sub_le _ _)
    rcases two with parent | ⟨_, less | more⟩
    · exact absurd (by rw [← parent, ← child]) snap.apart
    · rw [start] at low
      omega
    · exact ⟨more, bound⟩

theorem snapshot_step (user : a < 2 ^ 47) (inside : Region (s1.proc p).addrSpace a) (s : Machine) (op : Tid × MemOp)
    (after : Machine) (snap : Snapshot s1 p c a s)
    (keeps : KeepsSnapshot s1 p c s op ∧ ∀ byte, op ≠ (c, .store a byte)) (ran : s.step op = .ok after) :
    Snapshot s1 p c a after := by
  obtain ⟨t, call⟩ := op
  obtain ⟨keeps, unwritten⟩ := keeps
  simp only [Machine.step, bind_ok] at ran
  obtain ⟨_, _, ran⟩ := ran
  cases call with
  | store vaddr byte =>
    simp only [Machine.call, bind_ok, offer_ok, decide_eq_true_eq] at ran
    obtain ⟨_, userV, store⟩ := ran
    rcases keeps with ⟨rfl, fits⟩ | ⟨rfl, fits⟩
    · exact snap.parent_store user userV inside fits store
    · have other : a ≠ vaddr := by
        intro same
        apply unwritten byte
        rw [same]
      exact snap.child_store user userV inside fits other store
  | fault vaddr =>
    simp only [Machine.call, bind_ok, offer_ok, Bool.and_eq_true, decide_eq_true_eq, Option.isNone_iff_eq_none] at ran
    obtain ⟨_, ⟨userV, unmapped⟩, handle⟩ := ran
    rcases keeps with rfl | ⟨rfl, fits⟩
    · exact snap.parent_fault user userV unmapped handle
    · exact snap.child_fault user userV inside unmapped fits handle
  | brk brk =>
    simp only [Machine.call, bind_ok, pure_ok, Prod.exists] at ran
    obtain ⟨result, _, call, rfl⟩ := ran
    exact snap.brk_call keeps.1 keeps.2 call
  | pageMap vaddr => exact keeps.elim
  | pageUnmap vaddr => exact keeps.elim
  | clone cloneVm pml4 => exact keeps.elim
  | execv image => exact keeps.elim
  | exit => exact keeps.elim
  | wait => exact keeps.elim

theorem stackPage_of {v : Nat} (inside : inRange (defaultStack - globalStackSize) globalStackSize v) :
    ∃ k < globalStackSize / pgSize, v / pgSize = stackPage k / pgSize := by
  obtain ⟨low, high⟩ := inside
  simp only [wrap, defaultStack, globalStackSize, pgSize] at low high
  refine ⟨v / pgSize - (defaultStack - globalStackSize) / pgSize, ?_, ?_⟩
  · simp only [defaultStack, globalStackSize, pgSize]
    omega
  · simp only [stackPage, defaultStack, globalStackSize, pgSize]
    omega

theorem snapshot_start {s0 : Machine} {pml4 : Nat} (inv : MemInv s0) (kept : s0.Kept p)
    (own : (s0.proc p).addrSpace.heapStart ≠ 0)
    (touched : ∀ v < 2 ^ 47, (∃ i < 4, inRange ((s0.proc p).addrSpace.vaddr i) ((s0.proc p).addrSpace.filesz i) v) →
      translate s0.ram.phys (s0.proc p).pml4 v ≠ none)
    (ran : sysClone s0 p false pml4 = .ok s1) (user : a < 2 ^ 47) : Snapshot s1 p s0.tasks a s1 := by
  have done := sysClone_forked inv kept ran
  have other : p ≠ s0.tasks := Nat.ne_of_lt kept.1
  have parent : s1.proc p = s0.proc p := by
    rw [done.ext.proc]
    exact Function.update_of_ne other _ _
  have child : s1.proc s0.tasks =
      { pml4 := pml4, parentTask := p, addrSpace := (s0.proc p).addrSpace, life := .alive } := by
    rw [done.ext.proc]
    exact Function.update_self _ _ _
  have tasks : s1.tasks = s0.tasks + 1 := by
    rw [done.ext.others]
    rfl
  have root : (forked s0 p pml4).Root (s0.proc p).pml4 := by
    rw [forked_root]
    exact .inl kept.isRoot
  constructor
  case mem => exact done.inv
  case keptP => exact ⟨by rw [tasks]; exact Nat.lt_succ_of_lt kept.1, by rw [parent]; exact kept.2⟩
  case keptC => exact ⟨by rw [tasks]; exact Nat.lt_succ_self _, by rw [child]; simp⟩
  case apart =>
    rw [parent, child]
    intro same
    have table : (s0.proc p).pml4 = pml4 := same
    apply done.fresh
    rw [← table]
    exact kept.isRoot
  case fromP => rw [child]
  case own =>
    rw [parent]
    exact own
  case spaceP => exact ⟨(s1.proc p).addrSpace.heapEnd, rfl⟩
  case spaceC =>
    refine ⟨(s1.proc p).addrSpace.heapEnd, ?_, .inl rfl⟩
    rw [child, parent]
  case segments =>
    intro v userV range
    rw [parent] at range ⊢
    rcases range with segment | stack
    · obtain ⟨q, found⟩ := Option.ne_none_iff_exists'.mp (touched v userV segment)
      rw [← done.old _ kept.isRoot v userV] at found
      rw [(done.ext.keeps _ root v userV q found).1]
      exact Option.some_ne_none q
    · obtain ⟨k, less, page⟩ := stackPage_of stack
      obtain ⟨q, _, found, _⟩ := done.stack k less
      rw [parent] at found
      rw [translate_congr (pathOf_congr page), found]
      exact Option.some_ne_none q
  case source => exact fun _ _ => rfl
  case copied =>
    intro present
    by_cases stack : ∃ k < globalStackSize / pgSize, a / pgSize = stackPage k / pgSize
    · obtain ⟨k, less, page⟩ := stack
      obtain ⟨q, q', found, found', same⟩ := done.stack k less
      rw [← translate_congr (pathOf_congr page)] at found found'
      rw [byteAt_some found, byteAt_some found']
      exact same _ (Nat.mod_lt _ (by decide))
    · rw [child] at present
      refine absurd (done.empty a user ?_) present
      exact fun k less page => stack ⟨k, less, page⟩

theorem fillPage_ok {m : Ram} {roots : Nat → Prop} {root : Nat} (inv : TreeInv roots (fun _ => False) m)
    (room : Room 0 m) (isRoot : roots root) (user : v < 2 ^ 47) (found : translate m.phys root v = some q)
    (buf : Buffer) : ∃ after, fillPage m root v buf = .ok after ∧ Room 0 after := by
  have place := (translate_at isRoot user).mp found
  have low := inv.linked_low room place (by simp [pathOf])
  refine ⟨{ m with phys := Function.update m.phys q (copy (m.phys q) 0 buf pgSize) }, ?_, room⟩
  simp only [fillPage, found, if_pos low]

theorem intrPageHandle_ok (inv : MemInv s) (kept : s.Kept t) (user : v < 2 ^ 47) (room : Room 4 s.ram)
    (unmapped : translate s.ram.phys (s.proc t).pml4 v = none)
    (copies : inRg (s.proc t).addrSpace v → translate s.ram.phys (s.proc (s.proc t).parentTask).pml4 v ≠ none)
    (makes : ¬ inRg (s.proc t).addrSpace v → inHeap (s.proc t).addrSpace v) :
    ∃ after, intrPageHandle s t v = .ok after ∧ Room 0 after.ram := by
  have start : pageStart v < 2 ^ 47 := Nat.lt_of_le_of_lt (Nat.sub_le _ _) user
  have same : ∀ r, translate s.ram.phys r (pageStart v) = translate s.ram.phys r v :=
    fun r => translate_congr (pathOf_pageStart v)
  obtain ⟨ram, map, left⟩ := @pageMap_room s.ram s.Root (s.proc t).pml4 (pageStart v) inv.tree kept.isRoot start room
  by_cases range : inRg (s.proc t).addrSpace v
  · obtain ⟨source, found⟩ := Option.ne_none_iff_exists'.mp (copies range)
    obtain ⟨new, done⟩ := pageMap_mapped inv.tree kept.isRoot start ((same _).trans unmapped) map
    have here : translate ram.phys (s.proc t).pml4 (pageStart v) = some new :=
      (translate_at kept.isRoot start).mpr ((done.leaves _ _ _ rfl).mpr (.inr ⟨rfl, rfl, rfl⟩))
    obtain ⟨filled, fill, rest⟩ := fillPage_ok done.inv left kept.isRoot start here (s.ram.phys source)
    refine ⟨{ s with ram := filled }, ?_, rest⟩
    simp only [intrPageHandle, if_pos range, copyPage, same, found, map, fill, bind_ok, Except.ok.injEq,
      exists_eq_left', pure_ok]
  · refine ⟨{ s with ram := ram }, ?_, left⟩
    simp only [intrPageHandle, if_neg range, if_pos (makes range), map, bind_ok, Except.ok.injEq, exists_eq_left',
      pure_ok]

theorem Snapshot.inHeap_child (snap : Snapshot s1 p c a s) (user : a < 2 ^ 47)
    (heap : inHeap (s1.proc p).addrSpace a) : inHeap (s.proc c).addrSpace a := by
  obtain ⟨e, same, unchanged | ⟨low, high⟩⟩ := snap.spaceC
  · rw [same, unchanged]
    exact heap
  · rw [same]
    obtain ⟨first, last⟩ := heap
    simp only [wrap, defaultStack] at last high
    refine ⟨first, ?_⟩
    simp only [wrap]
    omega

theorem Snapshot.read (snap : Snapshot s1 p c a s) (user : a < 2 ^ 47) (inside : Region (s1.proc p).addrSpace a)
    (fits : FaultFits s1 p c s a) :
    (∀ byte after, loadByte s c a = .ok (byte, after) → byte = byteAt s1 p a) ∧
    (Room 4 s.ram → ∃ after, loadByte s c a = .ok (byteAt s1 p a, after)) := by
  have finds : ∀ touched q, access s c a = .ok touched →
      translate touched.ram.phys (touched.proc c).pml4 a = some q →
      touched.ram.phys q (a % pgSize) = byteAt s1 p a := by
    intro touched q touch found
    have touchedSnap := snap.child_access user user inside fits touch
    rw [← byteAt_some found]
    apply touchedSnap.copied
    rw [found]
    exact Option.some_ne_none q
  constructor
  · intro byte after ran
    simp only [loadByte, bind_ok] at ran
    obtain ⟨touched, touch, ran⟩ := ran
    split at ran
    · rename_i q found
      split at ran
      · simp only [pure_ok, Prod.mk.injEq] at ran
        rw [← ran.1]
        exact finds touched q touch found
      · cases ran
    · cases ran
  · intro room
    have touches : ∃ touched, access s c a = .ok touched ∧ Room 0 touched.ram := by
      unfold Memory.access
      cases found : translate s.ram.phys (s.proc c).pml4 a with
      | some q => exact ⟨s, rfl, snap.mem.tree.room_less (Nat.zero_le 4) room⟩
      | none =>
        apply intrPageHandle_ok snap.mem snap.keptC user room found
        · intro range
          rw [snap.fromP]
          exact snap.segments a user ((snap.inRg_child a).mp range)
        · intro outside
          apply snap.inHeap_child user
          exact inside.resolve_left fun range => outside ((snap.inRg_child a).mpr range)
    obtain ⟨touched, touch, left⟩ := touches
    obtain ⟨touchedInv, ext, ⟨q, found⟩, _⟩ := access_extends snap.mem snap.keptC user touch
    rw [← ext.proc] at found
    have low : q < memPages :=
      touchedInv.tree.linked_low left ((translate_at (ext.kept snap.keptC).isRoot user).mp found) (by simp [pathOf])
    refine ⟨touched, ?_⟩
    rw [← finds touched q touch found]
    simp only [loadByte, touch, bind_ok, Except.ok.injEq, exists_eq_left', found, if_pos low, pure_ok]

/-- The child reads the bytes its parent had when `sys_clone` returned, wherever it has not written itself. -/
theorem fork_is_snapshot (phys : Nat → Buffer) (cleared : Cleared phys) (before later : List (Tid × MemOp))
    (s0 s1 s : Machine) (p : Tid) (pml4 a : Nat) (fresh : Meets Machine.step MapsFresh (Machine.start phys) before)
    (booted : run Machine.step (Machine.start phys) before = .ok s0) (own : (s0.proc p).addrSpace.heapStart ≠ 0)
    (touched : ∀ v < defaultStack,
      (∃ i < 4, inRange ((s0.proc p).addrSpace.vaddr i) ((s0.proc p).addrSpace.filesz i) v) →
      translate s0.ram.phys (s0.proc p).pml4 v ≠ none)
    (cloned : s0.step (p, .clone false pml4) = .ok s1)
    (keeps : Meets Machine.step (KeepsSnapshot s1 p s0.tasks) s1 later) (ran : run Machine.step s1 later = .ok s)
    (user : a < defaultStack) (inside : Region (s1.proc p).addrSpace a)
    (unwritten : ∀ byte, (s0.tasks, MemOp.store a byte) ∉ later) (fits : FaultFits s1 p s0.tasks s a) :
    (∀ byte after, loadByte s s0.tasks a = .ok (byte, after) → byte = byteAt s1 p a) ∧
    (Room 4 s.ram → ∃ after, loadByte s s0.tasks a = .ok (byteAt s1 p a, after)) := by
  have inv : MemInv s0 := run_invariant memInv_step (memInv_start cleared) fresh booted
  simp only [Machine.step, bind_ok, offer_ok, Machine.live, decide_eq_true_eq, Machine.call] at cloned
  obtain ⟨_, ⟨task, alive⟩, clone⟩ := cloned
  have kept : s0.Kept p := ⟨task, by rw [alive]; decide⟩
  have avoid : ∀ op ∈ later, ∀ byte, op ≠ (s0.tasks, .store a byte) := by
    intro op member byte same
    rw [same] at member
    exact unwritten byte member
  have snap := run_invariant (snapshot_step user inside) (snapshot_start inv kept own touched clone user)
    (keeps.and avoid) ran
  exact snap.read user inside fits

def forkOps : List (Tid × MemOp) :=
  [(1, .store 0x401000 5), (2, .fault 0x400100), (1, .store 0x400100 3), (2, .brk 0x403000)]

theorem fork_is_snapshot_segment : ∃ s0 s1 s, run Machine.step (Machine.start fun _ _ => 0) bootOps = .ok s0 ∧
    s0.step (1, .clone false 0x110) = .ok s1 ∧ run Machine.step s1 forkOps = .ok s ∧ byteAt s1 1 0x400100 = 9 ∧
    byteAt s 1 0x400100 = 3 ∧ ∃ after, loadByte s 2 0x400100 = .ok (9, after) := by
  have booted : endsIn (run Machine.step (Machine.start fun _ _ => 0) bootOps) (fun s0 =>
      decide (s0.tasks = 2 ∧ (s0.proc 1).addrSpace.heapStart ≠ 0) &&
      ((List.range 4).all fun i => decide ((s0.proc 1).addrSpace.vaddr i = (if i = 0 then 0x400100 else 0) ∧
        (s0.proc 1).addrSpace.filesz i = if i = 0 then 0x20 else 0)) &&
      decide (translate s0.ram.phys (s0.proc 1).pml4 0x400100 ≠ none) &&
      endsIn (s0.step (1, .clone false 0x110)) (fun s1 =>
        decide (byteAt s1 1 0x400100 = 9 ∧ Region (s1.proc 1).addrSpace 0x400100) &&
        meetsCheck Machine.step (KeepsSnapshot s1 1 2) s1 forkOps &&
        endsIn (run Machine.step s1 forkOps) (fun s => decide (byteAt s 1 0x400100 = 3 ∧
          FaultFits s1 1 2 s 0x400100 ∧ Room 4 s.ram)))) = true := by
    decide +kernel
  obtain ⟨s0, boot, rest⟩ := exists_of_endsIn booted
  simp only [Bool.and_eq_true, decide_eq_true_eq, List.all_eq_true, List.mem_range] at rest
  obtain ⟨⟨⟨⟨tasks, own⟩, spaces⟩, mapped⟩, rest⟩ := rest
  obtain ⟨s1, clone, rest⟩ := exists_of_endsIn rest
  simp only [Bool.and_eq_true, decide_eq_true_eq] at rest
  obtain ⟨⟨⟨nine, inside⟩, keeps⟩, rest⟩ := rest
  obtain ⟨s, ran, rest⟩ := exists_of_endsIn rest
  obtain ⟨three, fits, room⟩ := of_decide_eq_true rest
  refine ⟨s0, s1, s, boot, clone, ran, nine, three, ?_⟩
  have touched : ∀ v < defaultStack,
      (∃ i < 4, inRange ((s0.proc 1).addrSpace.vaddr i) ((s0.proc 1).addrSpace.filesz i) v) →
      translate s0.ram.phys (s0.proc 1).pml4 v ≠ none := by
    intro v _ inFile
    obtain ⟨i, less, low, high⟩ := inFile
    rw [(spaces i less).1] at low high
    rw [(spaces i less).2] at high
    by_cases first : i = 0
    · rw [if_pos first] at low high
      rw [if_pos first, wrap] at high
      have page : v / pgSize = 0x400100 / pgSize := by
        simp only [pgSize]
        omega
      rw [translate_congr (pathOf_congr page)]
      exact mapped
    · rw [if_neg first, if_neg first] at high
      exact absurd high (Nat.not_lt_zero v)
  have result := fork_is_snapshot _ ⟨fun _ _ _ _ => rfl, fun _ _ => rfl⟩ bootOps forkOps s0 s1 s 1 0x110 0x400100
    bootOps_fresh boot own touched clone (by rw [tasks]; exact meets_of_check keeps) ran (by decide) inside
    (by rw [tasks]; simp [forkOps]) (by rw [tasks]; exact fits)
  rw [tasks, nine] at result
  exact result.2 room

/-- The heap is not copied: the parent has 7 at an address of its heap, and the child reads 0 there. -/
theorem forked_heap_reads_zero : ∃ s0 s1, run Machine.step (Machine.start fun _ _ => 0) bootOps = .ok s0 ∧
    s0.step (1, .clone false 0x110) = .ok s1 ∧ inHeap (s0.proc 1).addrSpace 0x401000 ∧ byteAt s0 1 0x401000 = 7 ∧
    byteAt s1 1 0x401000 = 7 ∧ ∃ after, loadByte s1 2 0x401000 = .ok (0, after) := by
  have evaluated : endsIn (run Machine.step (Machine.start fun _ _ => 0) bootOps) (fun s0 =>
      endsIn (s0.step (1, .clone false 0x110)) (fun s1 =>
        decide (inHeap (s0.proc 1).addrSpace 0x401000 ∧ byteAt s0 1 0x401000 = 7 ∧ byteAt s1 1 0x401000 = 7) &&
        endsIn (loadByte s1 2 0x401000) (fun result => decide (result.1 = 0)))) = true := by
    decide +kernel
  obtain ⟨s0, boot, rest⟩ := exists_of_endsIn evaluated
  obtain ⟨s1, clone, rest⟩ := exists_of_endsIn rest
  simp only [Bool.and_eq_true, decide_eq_true_eq] at rest
  obtain ⟨⟨heap, seven, still⟩, rest⟩ := rest
  obtain ⟨⟨byte, after⟩, load, zero⟩ := exists_of_endsIn rest
  refine ⟨s0, s1, boot, clone, heap, seven, still, after, ?_⟩
  have same : byte = 0 := of_decide_eq_true zero
  rw [load, same]

end RecoverOs.Memory
