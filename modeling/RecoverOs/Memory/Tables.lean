import RecoverOs.Memory.PageMap
import RecoverOs.Memory.Space

namespace RecoverOs.Memory

open Bytes Lib Forest Transition

variable {s after : Machine} {m : Ram} {buf : Buffer} {roots : Nat → Prop} {t u : Tid} {vaddr page root x : Nat}

def Machine.Root (s : Machine) (root : Nat) : Prop :=
  ∃ t < s.tasks, (s.proc t).life ≠ .died ∧ (s.proc t).pml4 = root

/-- Pages of the kernel's pool that can hold a top-level table. -/
def KernelPage (page : Nat) : Prop := 0x104 ≤ page ∧ page < 0x104 + 8 * (252 / 8)

structure MemInv (s : Machine) : Prop where
  tree : TreeInv s.Root (fun _ => False) s.ram
  tables : ∀ root, s.Root root → root = kernelPml4 ∨ (KernelPage root ∧ s.kernelPool root = true)

theorem pathOf_pageStart (vaddr : Nat) : pathOf (pageStart vaddr) = pathOf vaddr := by
  simp only [pathOf, pageEntryIdx, pageStart, pgSize]
  congr 1
  · omega
  · congr 1
    · omega
    · congr 1
      · omega
      · congr 1
        omega

theorem Mapped.fill {mapped : Ram} {q : Nat} {old buf : Buffer} {filled : Ram}
    (done : Mapped roots m mapped root vaddr q old) (isRoot : roots root) (user : vaddr < 2 ^ 47)
    (ran : fillPage mapped root vaddr buf = .ok filled) : Mapped roots m filled root vaddr q buf := by
  have here : At mapped roots root (pathOf vaddr) q := (done.leaves _ _ _ rfl).mpr (.inr ⟨rfl, rfl, rfl⟩)
  unfold fillPage at ran
  rw [(translate_at isRoot user).mpr here] at ran
  dsimp only at ran
  split at ran
  · cases ran
    obtain ⟨inv, places⟩ := done.inv.write here rfl (copy (mapped.phys q) 0 buf pgSize)
    refine ⟨inv, done.apart, ?_, ?_, ?_⟩
    · intro r p x last
      rw [places, done.leaves r p x last]
    · intro r p x last place
      rw [← done.data r p x last place]
      exact Function.update_of_ne (done.apart r p x last place) _ _
    · intro i bound
      show (Function.update mapped.phys q (copy (mapped.phys q) 0 buf pgSize)) q i = buf i
      rw [Function.update_self, copy_inside (Nat.zero_le i) (by omega), Nat.sub_zero]
  · cases ran

structure Maps (s after : Machine) (t : Tid) (vaddr : Nat) (buf : Buffer) : Prop where
  others : after = { s with ram := after.ram }
  ram : ∃ q, Mapped s.Root s.ram after.ram (s.proc t).pml4 vaddr q buf

theorem Maps.inv (maps : Maps s after t vaddr buf) (inv : MemInv s) : MemInv after := by
  obtain ⟨q, mapped⟩ := maps.ram
  rw [maps.others]
  exact ⟨mapped.inv, inv.tables⟩

def Machine.Kept (s : Machine) (t : Tid) : Prop := t < s.tasks ∧ (s.proc t).life ≠ .died

theorem Machine.Kept.isRoot (kept : s.Kept t) : s.Root (s.proc t).pml4 := ⟨t, kept.1, kept.2, rfl⟩

theorem pageMap_maps (inv : MemInv s) (kept : s.Kept t) (user : vaddr < 2 ^ 47)
    (unmapped : translate s.ram.phys (s.proc t).pml4 vaddr = none) {ram : Ram}
    (ran : pageMap s.ram (s.proc t).pml4 vaddr = .ok ram) : Maps s { s with ram := ram } t vaddr fun _ => 0 :=
  ⟨rfl, pageMap_mapped inv.tree kept.isRoot user unmapped ran⟩

theorem translate_congr {phys : Nat → Buffer} {v w : Nat} (same : pathOf v = pathOf w) :
    translate phys root v = translate phys root w := by
  rw [translate, translate, same]

theorem copyPage_maps {sTask : Tid} (inv : MemInv s) (kept : s.Kept t) (user : page < 2 ^ 47)
    (unmapped : translate s.ram.phys (s.proc t).pml4 page = none) (ran : copyPage s page t sTask = .ok after) :
    ∃ q, translate s.ram.phys (s.proc sTask).pml4 page = some q ∧ Maps s after t page (s.ram.phys q) := by
  unfold copyPage at ran
  split at ran
  · cases ran
  · rename_i q found
    simp only [bind_ok, pure_ok] at ran
    obtain ⟨mapped, map, filled, fill, rfl⟩ := ran
    obtain ⟨new, done⟩ := pageMap_mapped inv.tree kept.isRoot user unmapped map
    exact ⟨q, found, rfl, new, done.fill kept.isRoot user fill⟩

theorem intrPageHandle_maps (inv : MemInv s) (kept : s.Kept t) (user : vaddr < 2 ^ 47)
    (unmapped : translate s.ram.phys (s.proc t).pml4 vaddr = none) (ran : intrPageHandle s t vaddr = .ok after) :
    (inRg (s.proc t).addrSpace vaddr ∧ ∃ q,
      translate s.ram.phys (s.proc (s.proc t).parentTask).pml4 vaddr = some q ∧ Maps s after t vaddr (s.ram.phys q)) ∨
    (¬ inRg (s.proc t).addrSpace vaddr ∧ inHeap (s.proc t).addrSpace vaddr ∧ Maps s after t vaddr fun _ => 0) := by
  have start : pageStart vaddr < 2 ^ 47 := Nat.lt_of_le_of_lt (Nat.sub_le _ _) user
  have same : ∀ r, translate s.ram.phys r (pageStart vaddr) = translate s.ram.phys r vaddr :=
    fun r => translate_congr (pathOf_pageStart vaddr)
  have moved : ∀ buf, Maps s after t (pageStart vaddr) buf → Maps s after t vaddr buf := by
    intro buf maps
    obtain ⟨q, mapped⟩ := maps.ram
    refine ⟨maps.others, q, mapped.inv, mapped.apart, ?_, mapped.data, mapped.content⟩
    rw [← pathOf_pageStart vaddr]
    exact mapped.leaves
  unfold intrPageHandle at ran
  split at ran
  · rename_i inside
    obtain ⟨q, found, maps⟩ := copyPage_maps inv kept start ((same _).trans unmapped) ran
    exact .inl ⟨inside, q, (same _).symm.trans found, moved _ maps⟩
  · rename_i outside
    split at ran
    · rename_i heap
      simp only [bind_ok, pure_ok] at ran
      obtain ⟨ram, map, rfl⟩ := ran
      exact .inr ⟨outside, heap, moved _ (pageMap_maps inv kept start ((same _).trans unmapped) map)⟩
    · cases ran

theorem MemInv.access (inv : MemInv s) (kept : s.Kept t) (user : vaddr < 2 ^ 47)
    (ran : access s t vaddr = .ok after) : MemInv after ∧ after = { s with ram := after.ram } := by
  unfold Memory.access at ran
  split at ran
  · cases ran
    exact ⟨inv, rfl⟩
  · rename_i unmapped
    rcases intrPageHandle_maps inv kept user unmapped ran with ⟨_, q, _, maps⟩ | ⟨_, _, maps⟩
    · exact ⟨maps.inv inv, maps.others⟩
    · exact ⟨maps.inv inv, maps.others⟩

theorem MemInv.write (inv : MemInv s) (kept : s.Kept t) (user : vaddr < 2 ^ 47)
    (found : translate s.ram.phys (s.proc t).pml4 vaddr = some page) (buf : Buffer) :
    MemInv { s with ram := { s.ram with phys := Function.update s.ram.phys page buf } } :=
  ⟨(inv.tree.write ((translate_at kept.isRoot user).mp found) rfl buf).1, inv.tables⟩

theorem MemInv.storeByte {byte : UInt8} (inv : MemInv s) (kept : s.Kept t) (user : vaddr < 2 ^ 47)
    (ran : storeByte s t vaddr byte = .ok after) : MemInv after ∧ after = { s with ram := after.ram } := by
  simp only [Memory.storeByte, bind_ok] at ran
  obtain ⟨touched, touch, ran⟩ := ran
  obtain ⟨touchedInv, same⟩ := inv.access kept user touch
  have keptNow : touched.Kept t := by
    rw [same]
    exact kept
  split at ran
  · rename_i page found
    split at ran
    · cases ran
      refine ⟨touchedInv.write keptNow user found _, ?_⟩
      rw [same]
    · cases ran
  · cases ran

theorem pathOf_congr {v a : Nat} (same : v / pgSize = a / pgSize) : pathOf v = pathOf a := by
  rw [← pathOf_pageStart v, ← pathOf_pageStart a]
  have start : pageStart v = pageStart a := by
    simp only [pageStart, pgSize] at same ⊢
    omega
  rw [start]

theorem pathOf_inj {v w : Nat} (left : v < 2 ^ 47) (right : w < 2 ^ 47) (same : pathOf v = pathOf w) :
    v / pgSize = w / pgSize := by
  simp only [pathOf, pageEntryIdx, List.cons.injEq, and_true] at same
  simp only [pgSize]
  omega

theorem Mapped.elsewhere {mapped : Ram} {q v : Nat} (done : Mapped roots m mapped root vaddr q buf) (isRoot : roots x)
    (user : v < 2 ^ 47) (other : ¬ (x = root ∧ pathOf v = pathOf vaddr)) :
    translate mapped.phys x v = translate m.phys x v := by
  apply Option.ext
  intro y
  show translate mapped.phys x v = some y ↔ translate m.phys x v = some y
  rw [translate_at isRoot user, translate_at isRoot user, done.leaves _ _ _ rfl]
  exact or_iff_left fun ⟨_, here⟩ => other here

theorem mapPages_mapped {mapped : Ram} {start cnt : Nat} (inv : TreeInv roots (fun _ => False) m) (isRoot : roots root)
    (unmapped : ∀ k < cnt, start + k * pgSize < 2 ^ 47 ∧ translate m.phys root (start + k * pgSize) = none)
    (ran : mapPages m root start cnt = .ok mapped) :
    TreeInv roots (fun _ => False) mapped ∧
    (∀ k < cnt, (translate mapped.phys root (start + k * pgSize)).isSome) ∧
    ∀ v < 2 ^ 47, (∀ k < cnt, v / pgSize ≠ (start + k * pgSize) / pgSize) →
      translate mapped.phys root v = translate m.phys root v := by
  induction cnt generalizing mapped with
  | zero =>
    cases ran
    exact ⟨inv, fun k less => absurd less (Nat.not_lt_zero k), fun v _ _ => rfl⟩
  | succ cnt ih =>
    simp only [mapPages, bind_ok] at ran
    obtain ⟨middle, first, last⟩ := ran
    obtain ⟨middleInv, done, kept⟩ := ih (fun k less => unmapped k (Nat.lt_succ_of_lt less)) first
    obtain ⟨user, free⟩ := unmapped cnt (Nat.lt_succ_self cnt)
    have apart : ∀ k < cnt, (start + cnt * pgSize) / pgSize ≠ (start + k * pgSize) / pgSize := by
      intro k less
      simp only [pgSize]
      omega
    have stillFree : translate middle.phys root (start + cnt * pgSize) = none :=
      (kept _ user apart).trans free
    obtain ⟨q, mapped⟩ := pageMap_mapped middleInv isRoot user stillFree last
    refine ⟨mapped.inv, ?_, ?_⟩
    · intro k less
      by_cases here : k = cnt
      · subst here
        have place := (mapped.leaves root (pathOf (start + k * pgSize)) q rfl).mpr (.inr ⟨rfl, rfl, rfl⟩)
        rw [(translate_at isRoot user).mpr place]
        rfl
      · have earlier : k < cnt := by omega
        have userK := (unmapped k less).1
        rw [mapped.elsewhere isRoot userK fun both => apart k earlier (pathOf_inj userK user both.2).symm]
        exact done k earlier
    · intro v userV outside
      rw [mapped.elsewhere isRoot userV fun both => outside cnt (Nat.lt_succ_self cnt) (pathOf_inj userV user both.2)]
      exact kept v userV fun k less => outside k (Nat.lt_succ_of_lt less)

structure SamePages (s after : Machine) : Prop where
  others : after = { s with ram := after.ram }
  pages : ∀ root, s.Root root → ∀ v < 2 ^ 47, translate after.ram.phys root v = translate s.ram.phys root v

theorem MemInv.write_same (inv : MemInv s) (kept : s.Kept t) (user : vaddr < 2 ^ 47)
    (found : translate s.ram.phys (s.proc t).pml4 vaddr = some page) (buf : Buffer) :
    SamePages s { s with ram := { s.ram with phys := Function.update s.ram.phys page buf } } := by
  obtain ⟨_, places⟩ := inv.tree.write ((translate_at kept.isRoot user).mp found) rfl buf
  refine ⟨rfl, ?_⟩
  intro root isRoot v userV
  apply Option.ext
  intro y
  constructor
  · intro found
    exact ((places root (pathOf v) y).mp ⟨isRoot, pathOf_user userV, found⟩).reached
  · intro found
    exact ((places root (pathOf v) y).mpr ⟨isRoot, pathOf_user userV, found⟩).reached

theorem storeByte_mapped {byte : UInt8} (inv : MemInv s) (kept : s.Kept t) (user : vaddr < 2 ^ 47)
    (found : translate s.ram.phys (s.proc t).pml4 vaddr = some page) (ran : storeByte s t vaddr byte = .ok after) :
    MemInv after ∧ SamePages s after := by
  simp only [Memory.storeByte, Memory.access, found, bind_ok, Except.ok.injEq, exists_eq_left'] at ran
  split at ran
  · cases ran
    exact ⟨inv.write kept user found _, inv.write_same kept user found _⟩
  · cases ran

theorem storeBytes_mapped {data : Buffer} {cnt : Nat} (inv : MemInv s) (kept : s.Kept t)
    (mapped : ∀ k < cnt, vaddr + k < 2 ^ 47 ∧ (translate s.ram.phys (s.proc t).pml4 (vaddr + k)).isSome)
    (ran : storeBytes s t vaddr data cnt = .ok after) : MemInv after ∧ SamePages s after := by
  induction cnt generalizing after with
  | zero =>
    cases ran
    exact ⟨inv, rfl, fun _ _ _ _ => rfl⟩
  | succ cnt ih =>
    simp only [storeBytes, bind_ok] at ran
    obtain ⟨middle, first, last⟩ := ran
    obtain ⟨middleInv, same⟩ := ih (fun k less => mapped k (Nat.lt_succ_of_lt less)) first
    obtain ⟨user, some⟩ := mapped cnt (Nat.lt_succ_self cnt)
    have procs : middle.proc = s.proc := by rw [same.others]
    have roots : middle.Root = s.Root := by rw [same.others]; rfl
    have keptNow : middle.Kept t := by
      rw [same.others]
      exact kept
    obtain ⟨page, found⟩ := Option.isSome_iff_exists.mp some
    rw [← same.pages _ kept.isRoot _ user, ← procs] at found
    obtain ⟨afterInv, later⟩ := storeByte_mapped middleInv keptNow user found last
    refine ⟨afterInv, ?_, ?_⟩
    · rw [later.others, same.others]
    · intro root isRoot v userV
      rw [later.pages root (roots ▸ isRoot) v userV, same.pages root isRoot v userV]

theorem Machine.root_congr (tasks : after.tasks = s.tasks)
    (procs : ∀ t, (after.proc t).pml4 = (s.proc t).pml4 ∧ ((after.proc t).life = .died ↔ (s.proc t).life = .died)) :
    after.Root = s.Root := by
  funext root
  apply propext
  simp only [Machine.Root, tasks, (procs _).1, ne_eq, (procs _).2]

theorem MemInv.congr (inv : MemInv s) (ram : after.ram = s.ram) (pool : after.kernelPool = s.kernelPool)
    (roots : after.Root = s.Root) : MemInv after := by
  constructor
  · rw [roots, ram]
    exact inv.tree
  · rw [roots, pool]
    exact inv.tables

theorem setSpace_proc (s : Machine) (t u : Tid) (f : AddrSpace → AddrSpace) :
    ((s.setSpace t f).proc u).pml4 = (s.proc u).pml4 ∧ ((s.setSpace t f).proc u).life = (s.proc u).life := by
  simp only [Machine.setSpace, Machine.modify, Function.update_apply]
  split
  · rename_i here
    rw [here]
    exact ⟨rfl, rfl⟩
  · exact ⟨rfl, rfl⟩

theorem setSpace_root (s : Machine) (t : Tid) (f : AddrSpace → AddrSpace) : (s.setSpace t f).Root = s.Root :=
  Machine.root_congr rfl fun u => ⟨(setSpace_proc s t u f).1, by rw [(setSpace_proc s t u f).2]⟩

theorem MemInv.setSpace (inv : MemInv s) (t : Tid) (f : AddrSpace → AddrSpace) : MemInv (s.setSpace t f) :=
  inv.congr rfl rfl (setSpace_root s t f)

theorem Machine.Kept.setSpace (kept : s.Kept t) (u : Tid) (f : AddrSpace → AddrSpace) : (s.setSpace u f).Kept t := by
  refine ⟨kept.1, ?_⟩
  rw [(setSpace_proc s u t f).2]
  exact kept.2

def segPages (seg : Segment) : List Nat :=
  (List.range (pgCnt seg.vaddr seg.memsz)).map fun k => pageStart seg.vaddr + k * pgSize

/-- The segments are in the user half, and no page of them is mapped or mapped twice. -/
def Fits (s : Machine) (t : Tid) (segments : List Segment) : Prop :=
  (segments.flatMap segPages).Nodup ∧
  (∀ v ∈ segments.flatMap segPages, translate s.ram.phys (s.proc t).pml4 v = none) ∧
  ∀ seg ∈ segments, seg.vaddr + seg.memsz ≤ defaultStack

instance (s : Machine) (t : Tid) (segments : List Segment) : Decidable (Fits s t segments) :=
  inferInstanceAs (Decidable ((segments.flatMap segPages).Nodup ∧
    (∀ v ∈ segments.flatMap segPages, translate s.ram.phys (s.proc t).pml4 v = none) ∧
    ∀ seg ∈ segments, seg.vaddr + seg.memsz ≤ defaultStack))

theorem pgCnt_eq {size : Nat} (inside : vaddr + size ≤ defaultStack) :
    pgCnt vaddr size = (vaddr + size + 4095) / 4096 - vaddr / 4096 := by
  simp only [defaultStack] at inside
  simp only [pgCnt, divRoundUp, wrap, pageStart, pgSize]
  omega

theorem segPages_user {seg : Segment} (inside : seg.vaddr + seg.memsz ≤ defaultStack) {k : Nat}
    (less : k < pgCnt seg.vaddr seg.memsz) : pageStart seg.vaddr + k * pgSize < 2 ^ 47 := by
  rw [pgCnt_eq inside] at less
  simp only [defaultStack] at inside
  simp only [pageStart, pgSize]
  omega

theorem segmentLoad_maps {seg : Segment} {rest : List Segment} (inv : MemInv s) (kept : s.Kept t)
    (fits : Fits s t (seg :: rest)) (ran : segmentLoad s t seg = .ok after) :
    MemInv after ∧ after = { s with ram := after.ram } ∧ Fits after t rest := by
  obtain ⟨nodup, unmapped, ends⟩ := fits
  have inside := ends seg (List.mem_cons_self ..)
  rw [List.flatMap_cons] at nodup unmapped
  simp only [segmentLoad, bind_ok] at ran
  obtain ⟨ram, map, store⟩ := ran
  have own : ∀ k < pgCnt seg.vaddr seg.memsz, pageStart seg.vaddr + k * pgSize < 2 ^ 47 ∧
      translate s.ram.phys (s.proc t).pml4 (pageStart seg.vaddr + k * pgSize) = none := by
    intro k less
    refine ⟨segPages_user inside less, unmapped _ (List.mem_append_left _ ?_)⟩
    exact List.mem_map.mpr ⟨k, List.mem_range.mpr less, rfl⟩
  obtain ⟨treeInv, done, elsewhere⟩ := mapPages_mapped inv.tree kept.isRoot own map
  have mappedInv : MemInv { s with ram := ram } := ⟨treeInv, inv.tables⟩
  have covered : ∀ k < seg.nbyte, seg.vaddr + k < 2 ^ 47 ∧
      (translate ram.phys (s.proc t).pml4 (seg.vaddr + k)).isSome := by
    intro k less
    have short := seg.short
    have limit := inside
    simp only [defaultStack] at limit
    refine ⟨by omega, ?_⟩
    have index : (seg.vaddr + k) / 4096 - seg.vaddr / 4096 < pgCnt seg.vaddr seg.memsz := by
      rw [pgCnt_eq inside]
      omega
    have start : pageStart seg.vaddr + ((seg.vaddr + k) / 4096 - seg.vaddr / 4096) * pgSize =
        pageStart (seg.vaddr + k) := by
      simp only [pageStart, pgSize]
      omega
    have page := done _ index
    rw [start, translate_congr (pathOf_pageStart (seg.vaddr + k))] at page
    exact page
  obtain ⟨afterInv, same⟩ := storeBytes_mapped mappedInv kept covered store
  refine ⟨afterInv, by rw [same.others], ?_, ?_, ?_⟩
  · exact (List.nodup_append.mp nodup).2.1
  · intro v member
    have userV : v < 2 ^ 47 := by
      obtain ⟨other, among, there⟩ := List.mem_flatMap.mp member
      obtain ⟨k, less, rfl⟩ := List.mem_map.mp there
      exact segPages_user (ends other (List.mem_cons_of_mem _ among)) (List.mem_range.mp less)
    have procs : after.proc = s.proc := by rw [same.others]
    have free := unmapped v (List.mem_append_right _ member)
    rw [procs, same.pages _ kept.isRoot v userV, ← free]
    apply elsewhere v userV
    intro k less clash
    have aligned : v % pgSize = 0 := by
      obtain ⟨other, _, there⟩ := List.mem_flatMap.mp member
      obtain ⟨j, _, rfl⟩ := List.mem_map.mp there
      simp only [pageStart, pgSize]
      omega
    have equal : v = pageStart seg.vaddr + k * pgSize := by
      simp only [pageStart, pgSize] at aligned clash ⊢
      omega
    apply (List.nodup_append.mp nodup).2.2 v _ v member rfl
    exact List.mem_map.mpr ⟨k, List.mem_range.mpr less, equal.symm⟩
  · exact fun other among => ends other (List.mem_cons_of_mem _ among)

theorem MemInv.loadSegments {segments : List Segment} {loadIdx : Nat} (inv : MemInv s) (kept : s.Kept t)
    (fits : Fits s t segments) (ran : loadSegments s t loadIdx segments = .ok after) : MemInv after := by
  induction segments generalizing s loadIdx with
  | nil =>
    cases ran
    exact inv
  | cons seg rest ih =>
    simp only [Memory.loadSegments, bind_ok] at ran
    obtain ⟨loaded, load, ran⟩ := ran
    obtain ⟨loadedInv, same, restFits⟩ := segmentLoad_maps inv kept fits load
    have keptNow : loaded.Kept t := by
      rw [same]
      exact kept
    split at ran
    · cases ran
    · refine ih (loadedInv.setSpace t _) (keptNow.setSpace t _) ⟨restFits.1, ?_, restFits.2.2⟩ ran
      intro v member
      rw [(setSpace_proc loaded t t _).1]
      exact restFits.2.1 v member

theorem MemInv.sysExecv {image : Image} (inv : MemInv s) (kept : s.Kept t) (fits : Fits s t image.segments)
    (ran : sysExecv s t image = .ok after) : MemInv after := by
  simp only [Memory.sysExecv, bind_ok, pure_ok] at ran
  obtain ⟨loaded, load, rfl⟩ := ran
  have cleared : Fits (s.setSpace t fun space => { space with heapStart := 0 }) t image.segments := by
    refine ⟨fits.1, ?_, fits.2.2⟩
    intro v member
    rw [(setSpace_proc s t t _).1]
    exact fits.2.1 v member
  have loadedInv := (inv.setSpace t _).loadSegments (kept.setSpace t _) cleared load
  split
  · exact loadedInv.setSpace t _
  · exact loadedInv

end RecoverOs.Memory
