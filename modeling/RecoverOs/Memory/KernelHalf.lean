import RecoverOs.Memory.Accounting
import RecoverOs.Memory.Regions

namespace RecoverOs.Memory

open Bytes Lib Forest Transition

variable {s after : Machine} {m middle final : Ram} {roots pending : Nat → Prop} {t : Tid}
variable {root page idx vaddr q x : Nat} {path : List Nat}

structure KernelKept (roots : Nat → Prop) (m after : Ram) : Prop where
  pages : ∀ x < reservedPages, ¬ roots x → after.phys x = m.phys x
  tops : ∀ r, roots r → ∀ i, 256 ≤ i → i < 512 → entryAt after.phys r i = entryAt m.phys r i

theorem KernelKept.refl (roots : Nat → Prop) (m : Ram) : KernelKept roots m m :=
  ⟨fun _ _ _ => rfl, fun _ _ _ _ _ => rfl⟩

theorem KernelKept.trans (first : KernelKept roots m middle) (second : KernelKept roots middle final) :
    KernelKept roots m final where
  pages x low other := (second.pages x low other).trans (first.pages x low other)
  tops r isRoot i from_half inside := (second.tops r isRoot i from_half inside).trans (first.tops r isRoot i from_half inside)

theorem KernelKept.write (buf : Buffer) (high : reservedPages ≤ page) (low : ∀ r, roots r → r < reservedPages) :
    KernelKept roots m { m with phys := Function.update m.phys page buf } := by
  have same : ∀ x < reservedPages, Function.update m.phys page buf x = m.phys x :=
    fun x less => Function.update_of_ne (by omega) _ _
  refine ⟨fun x less _ => same x less, ?_⟩
  intro r isRoot i _ _
  exact congrArg (fun bytes => wordAt 8 bytes (8 * i)) (same r (low r isRoot))

theorem KernelKept.entry {allocated : Ram} (inv : TreeInv roots pending m) (place : At m roots root path page)
    (user : UserPath (path ++ [idx])) (same : allocated.phys = m.phys) (value : Nat) :
    KernelKept roots m (allocated.setEntry page idx value) := by
  have other : ∀ y < reservedPages, path ≠ [] → y ≠ page := by
    intro y less deep here
    have high := (inv.owned root path page place deep).1
    omega
  have top : path = [] → page = root ∧ idx < 256 := by
    intro empty
    subst empty
    exact ⟨(Option.some.inj place.reached).symm, user.2.2 idx rfl⟩
  constructor
  case pages =>
    intro y less free
    have different : y ≠ page := by
      by_cases empty : path = []
      · intro here
        rw [here, (top empty).1] at free
        exact free place.isRoot
      · exact other y less empty
    rw [setEntry_phys allocated page idx value different, same]
  case tops =>
    intro r isRoot i half _
    rw [entryAt_setEntry_other, same]
    intro both
    by_cases empty : path = []
    · have small := (top empty).2
      omega
    · exact other r (inv.rootLow r isRoot) empty both.1

theorem mapLevel_kept {paddr depth : Nat} {made : Ram} (inv : TreeInv roots pending m) (user : vaddr < 2 ^ 47)
    (inside : depth < 4) (place : At m roots root ((pathOf vaddr).take depth) page)
    (ran : mapLevel m root vaddr paddr depth = .ok made) : KernelKept roots m made := by
  have allowed : UserPath ((pathOf vaddr).take depth ++ [pageEntryIdx vaddr (3 - depth)]) := by
    rw [← pathOf_take vaddr inside]
    exact pathOf_take_user user (by omega)
  rcases mapLevel_cases inside place.reached ran with ⟨_, _, rfl⟩ | ⟨_, ⟨_, q, allocated, alloc, rfl⟩ | ⟨_, rfl⟩⟩
  · exact .refl roots _
  · exact .entry inv place allowed (inv.alloc alloc).2.1 _
  · exact .entry inv place allowed rfl _

theorem mapLevels_kept {paddr cnt : Nat} {made : Ram} (inv : TreeInv roots pending m) (isRoot : roots root)
    (user : vaddr < 2 ^ 47) (inside : cnt ≤ 4) (ran : mapLevels m root vaddr paddr cnt = .ok made) :
    KernelKept roots m made := by
  induction cnt generalizing made with
  | zero =>
    cases ran
    exact .refl roots m
  | succ cnt ih =>
    simp only [mapLevels, bind_ok] at ran
    obtain ⟨tables, first, last⟩ := ran
    obtain ⟨tablesInv, _, page, place⟩ := mapLevels_table inv isRoot user (by omega) first
    exact (ih (by omega) first).trans (mapLevel_kept tablesInv user (by omega) place last)

theorem pageMap_kept {made : Ram} (inv : TreeInv roots (fun _ => False) m) (isRoot : roots root) (user : vaddr < 2 ^ 47)
    (ran : pageMap m root vaddr = .ok made) : KernelKept roots m made := by
  simp only [pageMap, bind_ok, Prod.exists] at ran
  obtain ⟨q, allocated, alloc, ran⟩ := ran
  obtain ⟨allocInv, same, _⟩ := inv.alloc alloc
  have kept := mapLevels_kept allocInv isRoot user (Nat.le_refl 4) ran
  refine ⟨fun x low free => (kept.pages x low free).trans (by rw [same]), ?_⟩
  intro r top i half less
  rw [kept.tops r top i half less, same]

theorem mapped_high (inv : TreeInv roots (fun _ => False) m) (isRoot : roots root) (user : vaddr < 2 ^ 47)
    (found : translate m.phys root vaddr = some q) : reservedPages ≤ q := by
  have place := (translate_at isRoot user).mp found
  exact (inv.owned root (pathOf vaddr) q place (by simp [pathOf])).1

theorem fillPage_kept {buf : Buffer} {filled : Ram} (inv : TreeInv roots (fun _ => False) m) (isRoot : roots root)
    (user : vaddr < 2 ^ 47) (ran : fillPage m root vaddr buf = .ok filled) : KernelKept roots m filled := by
  unfold fillPage at ran
  split at ran
  · cases ran
  · rename_i q found
    split at ran
    · cases ran
      exact .write _ (mapped_high inv isRoot user found) inv.rootLow
    · cases ran

theorem mapPages_kept {start cnt : Nat} {made : Ram} (inv : TreeInv roots (fun _ => False) m) (isRoot : roots root)
    (unmapped : ∀ k < cnt, start + k * pgSize < 2 ^ 47 ∧ translate m.phys root (start + k * pgSize) = none)
    (ran : mapPages m root start cnt = .ok made) : KernelKept roots m made := by
  induction cnt generalizing made with
  | zero =>
    cases ran
    exact .refl roots m
  | succ cnt ih =>
    simp only [mapPages, bind_ok] at ran
    obtain ⟨middle, first, last⟩ := ran
    have before : ∀ k < cnt, start + k * pgSize < 2 ^ 47 ∧ translate m.phys root (start + k * pgSize) = none :=
      fun k less => unmapped k (Nat.lt_succ_of_lt less)
    have middleInv := (mapPages_mapped inv isRoot before first).1
    exact (ih before first).trans (pageMap_kept middleInv isRoot (unmapped cnt (Nat.lt_succ_self cnt)).1 last)

theorem copyPage_kept {sTask : Tid} (inv : MemInv s) (kept : s.Kept t) (user : page < 2 ^ 47)
    (unmapped : translate s.ram.phys (s.proc t).pml4 page = none) (ran : copyPage s page t sTask = .ok after) :
    KernelKept s.Root s.ram after.ram := by
  unfold copyPage at ran
  split at ran
  · cases ran
  · simp only [bind_ok, pure_ok] at ran
    obtain ⟨mapped, map, filled, fill, rfl⟩ := ran
    obtain ⟨q, done⟩ := pageMap_mapped inv.tree kept.isRoot user unmapped map
    exact (pageMap_kept inv.tree kept.isRoot user map).trans (fillPage_kept done.inv kept.isRoot user fill)

theorem intrPageHandle_kept (inv : MemInv s) (kept : s.Kept t) (user : vaddr < 2 ^ 47)
    (unmapped : translate s.ram.phys (s.proc t).pml4 vaddr = none) (ran : intrPageHandle s t vaddr = .ok after) :
    KernelKept s.Root s.ram after.ram := by
  have start : pageStart vaddr < 2 ^ 47 := Nat.lt_of_le_of_lt (Nat.sub_le _ _) user
  have free : translate s.ram.phys (s.proc t).pml4 (pageStart vaddr) = none :=
    (translate_congr (pathOf_pageStart vaddr)).trans unmapped
  unfold intrPageHandle at ran
  split at ran
  · exact copyPage_kept inv kept start free ran
  · split at ran
    · simp only [bind_ok, pure_ok] at ran
      obtain ⟨ram, map, rfl⟩ := ran
      exact pageMap_kept inv.tree kept.isRoot start map
    · cases ran

theorem access_kept (inv : MemInv s) (kept : s.Kept t) (user : vaddr < 2 ^ 47) (ran : access s t vaddr = .ok after) :
    KernelKept s.Root s.ram after.ram := by
  unfold access at ran
  split at ran
  · cases ran
    exact .refl _ _
  · rename_i unmapped
    exact intrPageHandle_kept inv kept user unmapped ran

theorem sameRoots (same : after = { s with ram := after.ram }) : after.Root = s.Root := by
  rw [same]
  rfl

theorem Machine.Kept.same (kept : s.Kept t) (same : after = { s with ram := after.ram }) : after.Kept t := by
  rw [same]
  exact kept

theorem storeByte_kept {byte : UInt8} (inv : MemInv s) (kept : s.Kept t) (user : vaddr < 2 ^ 47)
    (ran : storeByte s t vaddr byte = .ok after) : KernelKept s.Root s.ram after.ram := by
  simp only [storeByte, bind_ok] at ran
  obtain ⟨touched, touch, ran⟩ := ran
  obtain ⟨touchedInv, same⟩ := inv.access kept user touch
  have first := access_kept inv kept user touch
  split at ran
  · rename_i q found
    split at ran
    · cases ran
      have high := mapped_high touchedInv.tree (kept.same same).isRoot user found
      have second : KernelKept touched.Root touched.ram (setByte touched.ram q (vaddr % pgSize) byte) :=
        .write _ high touchedInv.tree.rootLow
      rw [sameRoots same] at second
      exact first.trans second
    · cases ran
  · cases ran

theorem storeBytes_kept {data : Buffer} {cnt : Nat} (inv : MemInv s) (kept : s.Kept t)
    (user : ∀ k < cnt, vaddr + k < 2 ^ 47) (ran : storeBytes s t vaddr data cnt = .ok after) :
    MemInv after ∧ after = { s with ram := after.ram } ∧ KernelKept s.Root s.ram after.ram := by
  induction cnt generalizing after with
  | zero =>
    cases ran
    exact ⟨inv, rfl, .refl _ _⟩
  | succ cnt ih =>
    simp only [storeBytes, bind_ok] at ran
    obtain ⟨middle, first, last⟩ := ran
    obtain ⟨middleInv, same, before⟩ := ih (fun k less => user k (Nat.lt_succ_of_lt less)) first
    have inside := user cnt (Nat.lt_succ_self cnt)
    have later := storeByte_kept middleInv (kept.same same) inside last
    rw [sameRoots same] at later
    obtain ⟨afterInv, still⟩ := middleInv.storeByte (kept.same same) inside last
    exact ⟨afterInv, by rw [still, same], before.trans later⟩

theorem segmentLoad_kept {seg : Segment} {rest : List Segment} (inv : MemInv s) (kept : s.Kept t)
    (fits : Fits s t (seg :: rest)) (ran : segmentLoad s t seg = .ok after) : KernelKept s.Root s.ram after.ram := by
  obtain ⟨_, unmapped, ends⟩ := fits
  have inside := ends seg (List.mem_cons_self ..)
  simp only [segmentLoad, bind_ok] at ran
  obtain ⟨ram, map, store⟩ := ran
  have own : ∀ k < pgCnt seg.vaddr seg.memsz, pageStart seg.vaddr + k * pgSize < 2 ^ 47 ∧
      translate s.ram.phys (s.proc t).pml4 (pageStart seg.vaddr + k * pgSize) = none := by
    intro k less
    refine ⟨segPages_user inside less, unmapped _ ?_⟩
    rw [List.flatMap_cons]
    exact List.mem_append_left _ (List.mem_map.mpr ⟨k, List.mem_range.mpr less, rfl⟩)
  have mappedInv : MemInv { s with ram := ram } :=
    ⟨(mapPages_mapped inv.tree kept.isRoot own map).1, inv.tables⟩
  have covered : ∀ k < seg.nbyte, seg.vaddr + k < 2 ^ 47 := by
    intro k less
    have short := seg.short
    simp only [defaultStack] at inside
    omega
  exact (mapPages_kept inv.tree kept.isRoot own map).trans (storeBytes_kept mappedInv kept covered store).2.2

theorem loadSegments_kept {segments : List Segment} {loadIdx : Nat} (inv : MemInv s) (kept : s.Kept t)
    (fits : Fits s t segments) (ran : loadSegments s t loadIdx segments = .ok after) :
    KernelKept s.Root s.ram after.ram := by
  induction segments generalizing s loadIdx with
  | nil =>
    cases ran
    exact .refl _ _
  | cons seg rest ih =>
    simp only [loadSegments, bind_ok] at ran
    obtain ⟨loaded, load, ran⟩ := ran
    have first := segmentLoad_kept inv kept fits load
    obtain ⟨loadedInv, same, restFits⟩ := segmentLoad_maps inv kept fits load
    split at ran
    · cases ran
    · have later := ih (loadedInv.setSpace t _) ((kept.same same).setSpace t _) ⟨restFits.1, fun v member => by
        rw [(setSpace_proc loaded t t _).1]
        exact restFits.2.1 v member, restFits.2.2⟩ ran
      rw [setSpace_root, sameRoots same] at later
      exact first.trans later

theorem sysExecv_kept {image : Image} (inv : MemInv s) (kept : s.Kept t) (fits : Fits s t image.segments)
    (ran : sysExecv s t image = .ok after) : KernelKept s.Root s.ram after.ram := by
  simp only [sysExecv, bind_ok, pure_ok] at ran
  obtain ⟨loaded, load, rfl⟩ := ran
  have cleared : Fits (s.setSpace t fun space => { space with heapStart := 0 }) t image.segments := by
    refine ⟨fits.1, ?_, fits.2.2⟩
    intro v member
    rw [(setSpace_proc s t t _).1]
    exact fits.2.1 v member
  have loads := loadSegments_kept (inv.setSpace t _) (kept.setSpace t _) cleared load
  rw [setSpace_root] at loads
  split
  · exact loads
  · exact loads

theorem sysExecv_root {image : Image} (ran : sysExecv s t image = .ok after) : after.Root = s.Root := by
  rw [sameRoots (sysExecv_moves ran)]
  exact setSpace_root s t _

theorem copyStack_kept {child : Tid} {cnt : Nat} (inv : MemInv s) (kept : s.Kept t) (keptChild : s.Kept child)
    (apart : (s.proc t).pml4 ≠ (s.proc child).pml4) (inside : cnt ≤ globalStackSize / pgSize)
    (empty : ∀ v < 2 ^ 47, translate s.ram.phys (s.proc child).pml4 v = none)
    (ran : copyStack s t child cnt = .ok after) : KernelKept s.Root s.ram after.ram := by
  induction cnt generalizing after with
  | zero =>
    cases ran
    exact .refl _ _
  | succ cnt ih =>
    simp only [copyStack, bind_ok] at ran
    obtain ⟨middle, first, touched, touch, copy⟩ := ran
    obtain ⟨middleInv, middleExt, _, free⟩ := copyStack_extends inv kept keptChild apart (by omega) empty first
    have user := @stackPage_user cnt (by omega)
    obtain ⟨touchedInv, touchedExt, _, elsewhere⟩ := access_extends middleInv (middleExt.kept kept) user touch
    have ext := middleExt.trans touchedExt
    have unmapped : translate touched.ram.phys (touched.proc child).pml4 (stackPage cnt) = none := by
      rw [ext.proc, elsewhere]
      · apply free _ user
        intro k less
        simp only [stackPage, defaultStack, globalStackSize, pgSize]
        omega
      · rw [middleExt.sameRoots]
        exact keptChild.isRoot
      · rw [middleExt.proc]
        exact apart.symm
      · exact user
    have accessed := access_kept middleInv (middleExt.kept kept) user touch
    have copied := copyPage_kept touchedInv (ext.kept keptChild) user unmapped copy
    rw [middleExt.sameRoots] at accessed
    rw [ext.sameRoots] at copied
    exact ((ih (by omega) first).trans accessed).trans copied

/-- The page tables that all address spaces share. -/
structure HalfInv (boot : Nat → Buffer) (tables : Nat → Prop) (s : Machine) : Prop where
  mem : MemInv s
  apart : ∀ x, tables x → x < reservedPages ∧ ¬ s.Root x
  pages : ∀ x, tables x → s.ram.phys x = boot x
  tops : ∀ r, s.Root r → ∀ i, 256 ≤ i → i < 512 → entryAt s.ram.phys r i = entryAt boot kernelPml4 i

variable {boot : Nat → Buffer} {tables : Nat → Prop}

theorem HalfInv.kept (inv : HalfInv boot tables s) (mem : MemInv after) (kept : KernelKept s.Root s.ram after.ram)
    (roots : ∀ r, after.Root r → s.Root r) : HalfInv boot tables after where
  mem := mem
  apart x table := ⟨(inv.apart x table).1, fun isRoot => (inv.apart x table).2 (roots x isRoot)⟩
  pages x table := by
    obtain ⟨low, free⟩ := inv.apart x table
    exact (kept.pages x low free).trans (inv.pages x table)
  tops r isRoot i half less := (kept.tops r (roots r isRoot) i half less).trans (inv.tops r (roots r isRoot) i half less)

theorem HalfInv.still (inv : HalfInv boot tables s) (mem : MemInv after) (ram : after.ram = s.ram)
    (roots : ∀ r, after.Root r → s.Root r) : HalfInv boot tables after :=
  inv.kept mem (ram ▸ .refl _ _) roots

/-- The upper half of a new table is a copy of its parent's. -/
theorem HalfInv.fork {pml4 : Nat} (inv : HalfInv boot tables s) (kept : s.Kept t) (page : KernelPage pml4)
    (free : s.kernelPool pml4 = false) (other : ¬ tables pml4) : HalfInv boot tables (forked s t pml4) := by
  obtain ⟨mem, fresh, _⟩ := @MemInv.forked s t pml4 inv.mem page free
  have same : ∀ x, x ≠ pml4 → (forked s t pml4).ram.phys x = s.ram.phys x :=
    fun x different => Function.update_of_ne different _ _
  have new : (forked s t pml4).ram.phys pml4 = fun i => if i < pgSize / 2 then 0 else s.ram.phys (s.proc t).pml4 i :=
    Function.update_self ..
  have old : ∀ r, (forked s t pml4).Root r → r ≠ pml4 → s.Root r := by
    intro r isRoot different
    rw [forked_root] at isRoot
    exact isRoot.resolve_right different
  constructor
  case mem => exact mem
  case apart =>
    intro x table
    have different : x ≠ pml4 := fun here => other (here ▸ table)
    exact ⟨(inv.apart x table).1, fun isRoot => (inv.apart x table).2 (old x isRoot different)⟩
  case pages =>
    intro x table
    rw [same x fun here => other (here ▸ table)]
    exact inv.pages x table
  case tops =>
    intro r isRoot i half less
    by_cases made : r = pml4
    · rw [made, ← inv.tops _ kept.isRoot i half less, entryAt, entryAt, new]
      apply wordAt_congr
      intro k inside
      exact if_neg (by simp only [pgSize]; omega)
    · rw [entryAt, same r made]
      exact inv.tops r (old r isRoot made) i half less

theorem HalfInv.clone {cloneVm : Bool} {pml4 : Nat} (inv : HalfInv boot tables s) (kept : s.Kept t)
    (other : cloneVm = false → ¬ tables pml4) (ran : sysClone s t cloneVm pml4 = .ok after) :
    HalfInv boot tables after := by
  cases cloneVm with
  | true =>
    apply inv.still (inv.mem.sysClone kept ran)
    · simp only [sysClone, if_true, Except.ok.injEq] at ran
      rw [← ran]
    · simp only [sysClone, if_true, Except.ok.injEq] at ran
      subst ran
      intro r isRoot
      rw [@Machine.root_added s _ _ rfl rfl (by simp)] at isRoot
      rcases isRoot with old | same
      · exact old
      · rw [same]
        exact kept.isRoot
  | false =>
    obtain ⟨page, free, copy⟩ := sysClone_fork kept.1 ran
    have half := @HalfInv.fork s t boot tables pml4 inv kept page free (other rfl)
    obtain ⟨_, fresh, empty, _⟩ := @MemInv.forked s t pml4 inv.mem page free
    have different : t ≠ s.tasks := Nat.ne_of_lt kept.1
    have parent : ((forked s t pml4).proc t) = s.proc t := Function.update_of_ne different _ _
    have child : ((forked s t pml4).proc s.tasks).pml4 = pml4 := by simp [forked]
    have keptParent : (forked s t pml4).Kept t := ⟨Nat.lt_succ_of_lt kept.1, by rw [parent]; exact kept.2⟩
    have keptChild : (forked s t pml4).Kept s.tasks := ⟨Nat.lt_succ_self _, by simp [forked]⟩
    have apart : ((forked s t pml4).proc t).pml4 ≠ ((forked s t pml4).proc s.tasks).pml4 := by
      rw [parent, child]
      exact fun same => fresh (same ▸ kept.isRoot)
    have emptyChild : ∀ v < 2 ^ 47, translate (forked s t pml4).ram.phys ((forked s t pml4).proc s.tasks).pml4 v = none := by
      intro v user
      rw [child]
      exact empty v user
    have copied := copyStack_kept half.mem keptParent keptChild apart (Nat.le_refl _) emptyChild copy
    apply half.kept (inv.mem.sysClone kept ran) copied
    rw [sameRoots (copyStack_others copy)]
    exact fun _ isRoot => isRoot

theorem sysExit_still (kept : s.Kept t) (none : (s.proc t).addrSpace.heapStart = 0) (ran : sysExit s t = .ok after) :
    after.ram = s.ram ∧ ∀ r, after.Root r → s.Root r := by
  simp only [sysExit, bind_ok, pure_ok] at ran
  obtain ⟨_, _, released, release, rfl⟩ := ran
  have untouched : (if (s.proc t).parentTask = t then { s.proc t with parentTask := initProc }
      else s.proc t).addrSpace.heapStart = 0 := by
    split
    · exact none
    · exact none
  rw [releaseProgResource, if_pos untouched] at release
  cases release
  have procs : ∀ u, (if (s.proc u).parentTask = t then { s.proc u with parentTask := initProc } else s.proc u).pml4 =
        (s.proc u).pml4 ∧
      (if (s.proc u).parentTask = t then { s.proc u with parentTask := initProc } else s.proc u).life =
        (s.proc u).life := by
    intro u
    split
    · exact ⟨rfl, rfl⟩
    · exact ⟨rfl, rfl⟩
  refine ⟨rfl, ?_⟩
  intro r isRoot
  obtain ⟨u, less, lives, table⟩ := isRoot
  by_cases here : u = t
  · subst here
    simp only [Machine.modify, Function.update_self, (procs u).1] at table
    exact ⟨u, less, kept.2, table⟩
  · simp only [Machine.modify, Function.update_of_ne here, (procs u).1, (procs u).2] at lives table
    exact ⟨u, less, lives, table⟩

theorem sysWait_still (shared : ∀ c, waitChild s t = some c → (s.proc t).pml4 = (s.proc c).pml4)
    (ran : sysWait s t = .ok after) : after.ram = s.ram ∧ ∀ r, after.Root r → s.Root r := by
  unfold sysWait at ran
  split at ran
  · cases ran
    exact ⟨rfl, fun _ isRoot => isRoot⟩
  · rename_i c found
    have tables : ((s.modify c fun proc => { proc with life := .died }).proc t).pml4 =
        ((s.modify c fun proc => { proc with life := .died }).proc c).pml4 := by
      have same := shared c found
      simp only [Machine.modify, Function.update_self, Function.update_apply]
      split
      · rfl
      · exact same
    rw [if_neg (not_not.mpr tables)] at ran
    cases ran
    refine ⟨rfl, ?_⟩
    intro r isRoot
    obtain ⟨u, less, lives, table⟩ := isRoot
    have other : u ≠ c := by
      intro here
      rw [here] at lives
      exact lives (by simp [Machine.modify])
    simp only [Machine.modify, Function.update_of_ne other] at lives table
    exact ⟨u, less, lives, table⟩

/-- A page of the shared tables is not given to a child as its top-level table. -/
def SparesTables (tables : Nat → Prop) : Tid × MemOp → Prop
  | (_, .clone false pml4) => ¬ tables pml4
  | _ => True

instance [DecidablePred tables] : (op : Tid × MemOp) → Decidable (SparesTables tables op)
  | (_, .clone false pml4) => inferInstanceAs (Decidable ¬ tables pml4)
  | (_, .clone true _) | (_, .pageMap _) | (_, .pageUnmap _) | (_, .fault _) | (_, .store ..) | (_, .brk _)
  | (_, .execv _) | (_, .exit) | (_, .wait) => .isTrue True.intro

theorem halfInv_step (s : Machine) (op : Tid × MemOp) (after : Machine) (inv : HalfInv boot tables s)
    (fresh : MapsFresh s op ∧ SparesTables tables op) (ran : s.step op = .ok after) : HalfInv boot tables after := by
  have mem := memInv_step s op after inv.mem fresh.1 ran
  obtain ⟨t, call⟩ := op
  simp only [Machine.step, bind_ok, offer_ok, Machine.live, decide_eq_true_eq] at ran
  obtain ⟨_, ⟨task, alive⟩, ran⟩ := ran
  have kept : s.Kept t := ⟨task, by rw [alive]; decide⟩
  cases call with
  | pageMap vaddr =>
    simp only [Machine.call, bind_ok, pure_ok] at ran
    obtain ⟨ram, map, rfl⟩ := ran
    exact inv.kept mem (pageMap_kept inv.mem.tree kept.isRoot fresh.1.1 map) fun _ isRoot => isRoot
  | pageUnmap vaddr => exact fresh.1.elim
  | fault vaddr =>
    simp only [Machine.call, bind_ok, offer_ok, Bool.and_eq_true, decide_eq_true_eq, Option.isNone_iff_eq_none] at ran
    obtain ⟨_, ⟨user, unmapped⟩, handle⟩ := ran
    apply inv.kept mem (intrPageHandle_kept inv.mem kept user unmapped handle)
    rw [sameRoots (intrPageHandle_others handle)]
    exact fun _ isRoot => isRoot
  | store vaddr byte =>
    simp only [Machine.call, bind_ok, offer_ok, decide_eq_true_eq] at ran
    obtain ⟨_, user, store⟩ := ran
    apply inv.kept mem (storeByte_kept inv.mem kept user store)
    rw [sameRoots (storeByte_others store)]
    exact fun _ isRoot => isRoot
  | brk brk =>
    simp only [Machine.call, bind_ok, pure_ok, Prod.exists] at ran
    obtain ⟨result, _, call, rfl⟩ := ran
    rcases sysBrk_keeps fresh.1 call with rfl | ⟨owner, _, _, _, _, rfl⟩
    · exact inv
    · apply inv.still mem rfl
      rw [setSpace_root]
      exact fun _ isRoot => isRoot
  | clone cloneVm pml4 =>
    apply inv.clone kept _ ran
    intro own
    have spares := fresh.2
    rw [own] at spares
    exact spares
  | execv image =>
    apply inv.kept mem (sysExecv_kept inv.mem kept fresh.1 ran)
    rw [sysExecv_root ran]
    exact fun _ isRoot => isRoot
  | exit =>
    obtain ⟨ram, roots⟩ := sysExit_still kept fresh.1 ran
    exact inv.still mem ram roots
  | wait =>
    obtain ⟨ram, roots⟩ := sysWait_still fresh.1 ran
    exact inv.still mem ram roots

end RecoverOs.Memory
