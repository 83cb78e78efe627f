import RecoverOs.Memory.Accounting
import RecoverOs.Memory.Room

namespace RecoverOs.Memory

open Bytes Lib Forest Transition

variable {m middle after : Ram} {roots pending : Nat → Prop} {root page idx vaddr q x k : Nat} {path p : List Nat}
  {tables : List Nat}

theorem Orderly.congr {pending' : Nat → Prop} (orderly : Orderly roots pending m) (same : ∀ x, pending' x ↔ pending x) :
    Orderly roots pending' m := by
  have equal : pending' = pending := funext fun x => propext (same x)
  rw [equal]
  exact orderly

/-- The tables above the last level that are missing on the way to `vaddr`, among the first `cnt`. -/
def missingTables (m : Ram) (root vaddr cnt : Nat) : Nat :=
  ((List.range cnt).filter fun depth => (follow (child m.phys) root ((pathOf vaddr).take (depth + 1))).isNone).length

structure Grown (roots pending : Nat → Prop) (m after : Ram) (root vaddr cnt : Nat) (tables : List Nat) : Prop where
  orderly : Orderly roots pending after
  nodup : tables.Nodup
  fresh : ∀ x ∈ tables, m.pool.bits x = false
  bits : ∀ x, after.pool.bits x = (m.pool.bits x || decide (x ∈ tables))
  count : tables.length = missingTables m root vaddr cnt
  keeps : ∀ r p x, At m roots r p x → At after roots r p x
  adds : ∀ r p x, At after roots r p x → At m roots r p x ∨
    (r = root ∧ x ∈ tables ∧ ∃ depth < cnt, p = (pathOf vaddr).take (depth + 1))
  here : ∃ page, At after roots root ((pathOf vaddr).take cnt) page

theorem pathOf_take_length {depth : Nat} (vaddr : Nat) (inside : depth ≤ 4) : ((pathOf vaddr).take depth).length = depth := by
  rw [List.length_take]
  exact Nat.min_eq_left inside

theorem Grown.below {cnt : Nat} (grown : Grown roots pending m after root vaddr cnt tables) (deep : cnt < p.length)
    (inside : cnt ≤ 3) : At after roots root p x ↔ At m roots root p x := by
  constructor
  · intro place
    refine (grown.adds root p x place).resolve_right ?_
    intro ⟨_, _, depth, less, same⟩
    rw [same, pathOf_take_length vaddr (by omega)] at deep
    omega
  · exact grown.keeps root p x

theorem missingTables_succ (m : Ram) (root vaddr cnt : Nat) : missingTables m root vaddr (cnt + 1) =
    missingTables m root vaddr cnt +
      if (follow (child m.phys) root ((pathOf vaddr).take (cnt + 1))).isNone then 1 else 0 := by
  rw [missingTables, List.range_succ, List.filter_append, List.length_append, ← missingTables]
  rw [List.filter_cons, List.filter_nil]
  split <;> rfl

theorem Grown.next {depth : Nat} (grown : Grown roots pending m middle root vaddr depth tables) (user : vaddr < 2 ^ 47)
    (inside : depth < 3) (place : At middle roots root ((pathOf vaddr).take depth) page) (x : Nat) :
    At m roots root ((pathOf vaddr).take (depth + 1)) x ↔
      child middle.phys page (pageEntryIdx vaddr (3 - depth)) = some x := by
  have step := pathOf_take vaddr (show depth < 4 by omega)
  rw [← grown.below (by rw [pathOf_take_length vaddr (by omega)]; omega) (by omega), step]
  constructor
  · intro there
    obtain ⟨parent, above, edge⟩ := there.init userPath_closed
    have same : parent = page := Option.some.inj (above.reached.symm.trans place.reached)
    rw [← same]
    exact edge
  · intro edge
    apply place.snoc _ edge
    rw [← step]
    exact pathOf_take_user user (by omega)

theorem Grown.missing {depth : Nat} (grown : Grown roots pending m middle root vaddr depth tables)
    (user : vaddr < 2 ^ 47) (inside : depth < 3) (place : At middle roots root ((pathOf vaddr).take depth) page)
    (free : child middle.phys page (pageEntryIdx vaddr (3 - depth)) = none) :
    follow (child m.phys) root ((pathOf vaddr).take (depth + 1)) = none := by
  cases reached : follow (child m.phys) root ((pathOf vaddr).take (depth + 1)) with
  | none => rfl
  | some x =>
    have edge := (grown.next user inside place x).mp ⟨place.isRoot, pathOf_take_user user (by omega), reached⟩
    rw [free] at edge
    cases edge

theorem Grown.level {paddr depth : Nat} (grown : Grown roots pending m middle root vaddr depth tables)
    (user : vaddr < 2 ^ 47) (inside : depth < 3) (ran : mapLevel middle root vaddr paddr depth = .ok after) :
    ∃ more, Grown roots pending m after root vaddr (depth + 1) more := by
  obtain ⟨page, place⟩ := grown.here
  have step := pathOf_take vaddr (show depth < 4 by omega)
  have allowed : UserPath ((pathOf vaddr).take depth ++ [pageEntryIdx vaddr (3 - depth)]) := by
    rw [← step]
    exact pathOf_take_user user (by omega)
  rcases mapLevel_cases (by omega) place.reached ran with ⟨x, edge, rfl⟩ | ⟨free, ⟨_, q, allocated, alloc, rfl⟩ | ⟨last, _⟩⟩
  · have old := (grown.next user inside place _).mpr edge
    refine ⟨tables, grown.orderly, grown.nodup, grown.fresh, grown.bits, ?_, grown.keeps, ?_, _, grown.keeps _ _ _ old⟩
    · rw [missingTables_succ, old.reached, ← grown.count]
      rfl
    · intro r p x there
      rcases grown.adds r p x there with before | ⟨same, new, k, less, steps⟩
      · exact .inl before
      · exact .inr ⟨same, new, k, by omega, steps⟩
  · have missing := grown.missing user inside place free
    obtain ⟨allocOrderly, same, unmarked, bits, notPending⟩ := grown.orderly.alloc alloc
    have placed : At allocated roots root ((pathOf vaddr).take depth) page := by
      rw [At, same]
      exact place
    obtain ⟨linkOrderly, places⟩ := allocOrderly.link (.inr rfl) placed allowed (by rw [same]; exact free)
    rw [← step] at places
    have before : ∀ r p x, At allocated roots r p x ↔ At middle roots r p x := by
      intro r p x
      rw [At, At, same]
    rw [grown.bits, Bool.or_eq_false_iff, decide_eq_false_iff_not] at unmarked
    refine ⟨q :: tables, linkOrderly.congr ?_, List.nodup_cons.mpr ⟨unmarked.2, grown.nodup⟩, ?_, ?_, ?_, ?_, ?_, q, ?_⟩
    · intro x
      constructor
      · intro waiting
        exact ⟨.inl waiting, fun here => notPending (here ▸ waiting)⟩
      · intro left
        exact left.1.resolve_right left.2
    · intro x member
      rcases List.mem_cons.mp member with rfl | old
      · exact unmarked.1
      · exact grown.fresh x old
    · intro x
      show allocated.pool.bits x = _
      rw [bits, grown.bits, Bool.or_assoc]
      simp only [List.mem_cons, Bool.decide_or, Bool.or_comm (decide (x = q))]
    · rw [List.length_cons, missingTables_succ, missing, grown.count]
      rfl
    · intro r p x there
      exact (places r p x).mpr (.inl ((before r p x).mpr (grown.keeps r p x there)))
    · intro r p x there
      rcases (places r p x).mp there with old | ⟨rfl, rfl, rfl⟩
      · rcases grown.adds r p x ((before r p x).mp old) with earlier | ⟨sameRoot, new, k, less, steps⟩
        · exact .inl earlier
        · exact .inr ⟨sameRoot, List.mem_cons_of_mem _ new, k, by omega, steps⟩
      · exact .inr ⟨rfl, List.mem_cons_self .., depth, Nat.lt_succ_self _, rfl⟩
    · exact (places _ _ _).mpr (.inr ⟨rfl, rfl, rfl⟩)
  · omega

theorem Orderly.levels {paddr cnt : Nat} (orderly : Orderly roots pending m) (isRoot : roots root)
    (user : vaddr < 2 ^ 47) (inside : cnt ≤ 3) (ran : mapLevels m root vaddr paddr cnt = .ok after) :
    ∃ tables, Grown roots pending m after root vaddr cnt tables := by
  induction cnt generalizing after with
  | zero =>
    cases ran
    refine ⟨[], orderly, List.nodup_nil, ?_, ?_, rfl, fun _ _ _ => id, fun _ _ _ => .inl, root, isRoot, userPath_nil, rfl⟩
    · intro x member
      cases member
    · intro x
      simp
  | succ cnt ih =>
    simp only [mapLevels, bind_ok] at ran
    obtain ⟨middle, first, last⟩ := ran
    obtain ⟨tables, grown⟩ := ih (by omega) first
    exact grown.level user (by omega) last

theorem Grown.last_entry (grown : Grown roots pending m middle root vaddr 3 tables) (user : vaddr < 2 ^ 47)
    (place : At middle roots root ((pathOf vaddr).take 3) page) :
    translate m.phys root vaddr = child middle.phys page (pageEntryIdx vaddr (3 - 3)) := by
  have whole : (pathOf vaddr).take 3 ++ [pageEntryIdx vaddr (3 - 3)] = pathOf vaddr := (pathOf_take vaddr (by decide)).symm
  have deep : 3 < (pathOf vaddr).length := Nat.lt_succ_self 3
  apply Option.ext
  intro x
  rw [translate_at place.isRoot user, ← grown.below deep (Nat.le_refl 3), ← whole]
  constructor
  · intro leaf
    obtain ⟨parent, above, edge⟩ := leaf.init userPath_closed
    have same : parent = page := Option.some.inj (above.reached.symm.trans place.reached)
    rw [← same]
    exact edge
  · apply place.snoc
    rw [whole]
    exact pathOf_user user

structure Mapping (roots : Nat → Prop) (m after : Ram) (root vaddr q : Nat) (tables : List Nat) : Prop where
  orderly : Orderly roots (fun _ => False) after
  nodup : (q :: tables).Nodup
  fresh : ∀ x ∈ q :: tables, m.pool.bits x = false
  bits : ∀ x, after.pool.bits x = (m.pool.bits x || decide (x ∈ q :: tables))
  count : tables.length = missingTables m root vaddr 3
  here : At after roots root (pathOf vaddr) q
  alone : ∀ r p, At after roots r p q → r = root ∧ p = pathOf vaddr
  leaves : ∀ r p x, p.length = 4 → (At after roots r p x ↔ At m roots r p x ∨ (x = q ∧ r = root ∧ p = pathOf vaddr))

theorem Orderly.pageMap (orderly : Orderly roots (fun _ => False) m) (isRoot : roots root) (user : vaddr < 2 ^ 47)
    (unmapped : translate m.phys root vaddr = none) (ran : pageMap m root vaddr = .ok after) :
    ∃ q tables, Mapping roots m after root vaddr q tables := by
  simp only [Memory.pageMap, bind_ok, Prod.exists] at ran
  obtain ⟨q, allocated, alloc, ran⟩ := ran
  obtain ⟨allocOrderly, same, unmarked, bits, _⟩ := orderly.alloc alloc
  have before : ∀ r p x, At allocated roots r p x ↔ At m roots r p x := by
    intro r p x
    rw [At, At, same]
  rw [mapLevels, bind_ok] at ran
  obtain ⟨filled, levels, last⟩ := ran
  obtain ⟨tables, grown⟩ := allocOrderly.levels isRoot user (Nat.le_refl 3) levels
  obtain ⟨page, place⟩ := grown.here
  have whole : (pathOf vaddr).take 3 ++ [pageEntryIdx vaddr (3 - 3)] = pathOf vaddr := (pathOf_take vaddr (by decide)).symm
  have allowed : UserPath ((pathOf vaddr).take 3 ++ [pageEntryIdx vaddr (3 - 3)]) := by
    rw [whole]
    exact pathOf_user user
  have free : child filled.phys page (pageEntryIdx vaddr (3 - 3)) = none := by
    rw [← grown.last_entry user place, same]
    exact unmapped
  rcases mapLevel_cases (by decide) place.reached last with ⟨x, present, _⟩ | ⟨_, ⟨deep, _⟩ | ⟨_, rfl⟩⟩
  · rw [free] at present
    cases present
  · exact absurd deep (by decide)
  have waiting : (fun x => False ∨ x = q) q := .inr rfl
  obtain ⟨linkOrderly, places⟩ := grown.orderly.link waiting place allowed free
  rw [whole] at places
  have unplaced := (grown.orderly.waits q waiting).2.2
  have notTable : q ∉ tables := by
    intro member
    have old := grown.fresh q member
    rw [bits] at old
    simp at old
  refine ⟨q, tables, linkOrderly.congr ?_, List.nodup_cons.mpr ⟨notTable, grown.nodup⟩, ?_, ?_, ?_, ?_, ?_, ?_⟩
  · intro x
    constructor
    · exact False.elim
    · intro left
      exact left.2 (left.1.resolve_left id)
  · intro x member
    rcases List.mem_cons.mp member with rfl | old
    · exact unmarked
    · have free := grown.fresh x old
      rw [bits, Bool.or_eq_false_iff] at free
      exact free.1
  · intro x
    show filled.pool.bits x = _
    rw [grown.bits, bits, Bool.or_assoc]
    simp only [List.mem_cons, Bool.decide_or]
  · rw [grown.count, missingTables, missingTables, same]
  · exact (places _ _ _).mpr (.inr ⟨rfl, rfl, rfl⟩)
  · intro r p there
    rcases (places r p q).mp there with old | ⟨_, sameRoot, steps⟩
    · exact absurd old (unplaced r p)
    · exact ⟨sameRoot, steps⟩
  · intro r p x length
    rw [places]
    apply or_congr_left
    constructor
    · intro there
      rcases grown.adds r p x there with old | ⟨_, _, depth, less, steps⟩
      · exact (before r p x).mp old
      · rw [steps, pathOf_take_length vaddr (by omega)] at length
        omega
    · intro old
      exact grown.keeps r p x ((before r p x).mpr old)

def Spare (m : Ram) (cnt : Nat) : Prop :=
  ∃ xs : List Nat, xs.Nodup ∧ cnt ≤ xs.length ∧ ∀ x ∈ xs, x < memPages ∧ m.pool.bits x = false

theorem Spare.less {cnt : Nat} (spare : Spare m cnt) (fewer : k ≤ cnt) : Spare m k := by
  obtain ⟨xs, nodup, length, free⟩ := spare
  exact ⟨xs, nodup, Nat.le_trans fewer length, free⟩

theorem poolAlloc_spare (size : m.pool.bytesLen = poolBytesLen) (spare : Spare m (k + 1)) :
    ∃ q after, poolAlloc m = .ok (q, after) ∧ q < memPages ∧ Spare after k := by
  obtain ⟨xs, nodup, length, free⟩ := spare
  have nonempty : 0 < xs.length := by omega
  obtain ⟨first, among⟩ := List.exists_mem_of_length_pos nonempty
  obtain ⟨inRam, unmarked⟩ := free first among
  cases found : bitmapAlloc m.pool 1 with
  | none =>
    have full := bitmapAlloc_one_none found first
    rw [size] at full
    rw [full (by simp only [memPages, poolBytesLen, pgSize] at inRam ⊢; omega)] at unmarked
    cases unmarked
  | some result =>
    obtain ⟨q, btmp⟩ := result
    obtain ⟨_, _, lowest, same⟩ := bitmapAlloc_one_some found
    have low : q ≤ first := by
      by_contra high
      rw [lowest first (Nat.lt_of_not_le high)] at unmarked
      cases unmarked
    refine ⟨q, { m with pool := btmp }, by rw [poolAlloc, found], by omega, xs.erase q, nodup.erase q, ?_, ?_⟩
    · have shorter := List.le_length_erase (l := xs) (a := q)
      omega
    · intro x member
      obtain ⟨other, old⟩ := (List.Nodup.mem_erase_iff nodup).mp member
      refine ⟨(free x old).1, ?_⟩
      show btmp.bits x = false
      rw [same, bitmapSet_bits, if_neg other]
      exact (free x old).2

def TakenInRam (m after : Ram) : Prop := ∀ x, m.pool.bits x = false → after.pool.bits x = true → x < memPages

theorem Grown.inRam {cnt : Nat} (grown : Grown roots pending m after root vaddr cnt tables) (low : TablesInRam roots m)
    (taken : TakenInRam m after) : TablesInRam roots after := by
  intro r p x nonempty short place
  rcases grown.adds r p x place with old | ⟨_, member, _⟩
  · exact low r p x nonempty short old
  · apply taken x (grown.fresh x member)
    rw [grown.bits, decide_eq_true member, Bool.or_true]

theorem Orderly.levels_return {paddr cnt : Nat} (orderly : Orderly roots pending m) (isRoot : roots root)
    (user : vaddr < 2 ^ 47) (low : TablesInRam roots m) (inside : cnt ≤ 3)
    (spare : Spare m (missingTables m root vaddr cnt + k)) :
    ∃ after, mapLevels m root vaddr paddr cnt = .ok after ∧ TakenInRam m after ∧ Spare after k := by
  induction cnt generalizing k with
  | zero =>
    refine ⟨m, rfl, ?_, spare.less (Nat.le_add_left ..)⟩
    intro x free marked
    rw [free] at marked
    cases marked
  | succ cnt ih =>
    rw [missingTables_succ, Nat.add_assoc] at spare
    obtain ⟨middle, levels, taken, left⟩ := ih (by omega) spare
    obtain ⟨tables, grown⟩ := orderly.levels isRoot user (by omega) levels
    obtain ⟨page, place⟩ := grown.here
    have pointer := pageEntryPtr_low (grown.inRam low taken) (by omega) place
    by_cases present : entryAt middle.phys page (pageEntryIdx vaddr (3 - cnt)) % 2 = 1
    · refine ⟨middle, ?_, taken, left.less (Nat.le_add_left ..)⟩
      simp only [mapLevels, levels, mapLevel, pointer, bind_ok, Except.ok.injEq, exists_eq_left', if_pos present, pure_ok]
    · have free : child middle.phys page (pageEntryIdx vaddr (3 - cnt)) = none := by
        rw [child, if_neg present]
      rw [grown.missing user (by omega) place free, Option.isNone_none, if_pos rfl, Nat.add_comm] at left
      obtain ⟨q, allocated, alloc, inRam, rest⟩ := poolAlloc_spare grown.orderly.size left
      obtain ⟨_, _, _, bits, _⟩ := grown.orderly.alloc alloc
      have higher : cnt ≠ 3 := by omega
      refine ⟨allocated.setEntry page (pageEntryIdx vaddr (3 - cnt)) (q * pgSize + prot), ?_, ?_, rest⟩
      · simp only [mapLevels, levels, mapLevel, pointer, bind_ok, Except.ok.injEq, exists_eq_left', if_neg present,
          if_neg higher, alloc, pure_ok]
      · intro x unmarked marked
        have now : allocated.pool.bits x = true := marked
        rw [bits, Bool.or_eq_true, decide_eq_true_eq] at now
        rcases now with before | rfl
        · exact taken x unmarked before
        · exact inRam

theorem Orderly.pageMap_returns (orderly : Orderly roots (fun _ => False) m) (isRoot : roots root)
    (user : vaddr < 2 ^ 47) (low : TablesInRam roots m) (spare : Spare m (missingTables m root vaddr 3 + 1)) :
    ∃ after, Memory.pageMap m root vaddr = .ok after ∧ TakenInRam m after := by
  obtain ⟨q, allocated, alloc, inRam, left⟩ := poolAlloc_spare orderly.size spare
  obtain ⟨allocOrderly, same, _, bits, _⟩ := orderly.alloc alloc
  have lowNow : TablesInRam roots allocated := by
    intro r path x nonempty short place
    rw [At, same] at place
    exact low r path x nonempty short place
  have room : Spare allocated (missingTables allocated root vaddr 3 + 0) := by
    rw [Nat.add_zero, missingTables, same, ← missingTables]
    exact left
  obtain ⟨filled, levels, taken, _⟩ := @Orderly.levels_return allocated roots _ root vaddr 0 q 3 allocOrderly isRoot user
    lowNow (Nat.le_refl 3) room
  obtain ⟨tables, grown⟩ := allocOrderly.levels isRoot user (Nat.le_refl 3) levels
  obtain ⟨page, place⟩ := grown.here
  have pointer := pageEntryPtr_low (grown.inRam lowNow taken) (by decide) place
  have takenBoth : ∀ x, m.pool.bits x = false → filled.pool.bits x = true → x < memPages := by
    intro x unmarked marked
    by_cases here : x = q
    · rw [here]
      exact inRam
    · apply taken x _ marked
      rw [bits, unmarked, decide_eq_false here]
      rfl
  have last : ∃ after, mapLevel filled root vaddr q 3 = .ok after ∧ TakenInRam m after := by
    by_cases present : entryAt filled.phys page (pageEntryIdx vaddr (3 - 3)) % 2 = 1
    · refine ⟨filled, ?_, takenBoth⟩
      simp only [mapLevel, pointer, bind_ok, Except.ok.injEq, exists_eq_left', if_pos present, pure_ok]
    · refine ⟨filled.setEntry page (pageEntryIdx vaddr (3 - 3)) (q * pgSize + prot), ?_, takenBoth⟩
      simp only [mapLevel, pointer, bind_ok, Except.ok.injEq, exists_eq_left', if_neg present, if_true, pure_ok]
  obtain ⟨after, level, takenLast⟩ := last
  have turns : mapLevels allocated root vaddr q 4 = .ok after := by
    rw [mapLevels, bind_ok]
    exact ⟨filled, levels, level⟩
  refine ⟨after, ?_, takenLast⟩
  rw [Memory.pageMap, bind_ok]
  exact ⟨(q, allocated), alloc, turns⟩

/-- The tree below one root, with nothing taken that is still to be linked. -/
abbrev UserTree (m : Ram) (root : Nat) : Prop := Orderly (fun r => r = root) (fun _ => False) m

/-- No table in the user half is referred to twice. -/
def Unshared (m : Ram) (root : Nat) : Prop :=
  ∀ path path' x, At m (fun r => r = root) root path x → At m (fun r => r = root) root path' x → path.length < 4 →
    path = path'

/-- `vaddr` has got a page that was free and that nothing else refers to; no other translation has changed, and besides
    that page one page has been taken for each missing table. -/
structure AddsOne (m after : Ram) (root vaddr : Nat) : Prop where
  page : ∃ q tables, m.pool.bits q = false ∧ translate after.phys root vaddr = some q ∧
    (∀ path, At after (fun r => r = root) root path q → path = pathOf vaddr) ∧
    (q :: tables).Nodup ∧ (∀ x ∈ tables, m.pool.bits x = false) ∧ tables.length = missingTables m root vaddr 3 ∧
    ∀ x, after.pool.bits x = (m.pool.bits x || decide (x ∈ q :: tables))
  others : ∀ v < 2 ^ 47, v / pgSize ≠ vaddr / pgSize → translate after.phys root v = translate m.phys root v
  unshared : Unshared after root

theorem Orderly.unshared (tree : UserTree m root) : Unshared m root :=
  fun path path' x left right table => (tree.alone root path root path' x left right table).2

theorem Mapping.addsOne (mapping : Mapping (fun r => r = root) m after root vaddr q tables) (user : vaddr < 2 ^ 47) :
    AddsOne m after root vaddr := by
  constructor
  case page =>
    exact ⟨q, tables, mapping.fresh q (List.mem_cons_self ..), mapping.here.reached, fun path there =>
      (mapping.alone root path there).2, mapping.nodup, fun x member => mapping.fresh x (List.mem_cons_of_mem _ member),
      mapping.count, mapping.bits⟩
  case others =>
    intro v userV other
    apply Option.ext
    intro x
    show translate after.phys root v = some x ↔ translate m.phys root v = some x
    rw [@translate_at after (fun r => r = root) root v x rfl userV, @translate_at m (fun r => r = root) root v x rfl userV,
      mapping.leaves _ _ _ rfl]
    exact or_iff_left fun ⟨_, _, steps⟩ => other (pathOf_inj userV user steps)
  case unshared => exact mapping.orderly.unshared

/-- `page_map` adds exactly one translation, and it returns if there is memory for the page and the missing tables. -/
theorem page_map_adds_one (m : Ram) (root vaddr : Nat) (tree : UserTree m root) (user : vaddr < 2 ^ 47)
    (unmapped : translate m.phys root vaddr = none) :
    (∀ after, pageMap m root vaddr = .ok after → AddsOne m after root vaddr) ∧
    (TablesInRam (fun r => r = root) m → Spare m (missingTables m root vaddr 3 + 1) →
      ∃ after, pageMap m root vaddr = .ok after) := by
  constructor
  · intro after ran
    obtain ⟨q, tables, mapping⟩ := tree.pageMap rfl user unmapped ran
    exact mapping.addsOne user
  · intro low spare
    obtain ⟨after, ran, _⟩ := tree.pageMap_returns rfl user low spare
    exact ⟨after, ran⟩

theorem Orderly.restrict {roots' : Nat → Prop} (orderly : Orderly roots pending m) (sub : ∀ r, roots' r → roots r) :
    Orderly roots' pending m := by
  have wider : ∀ r path x, At m roots' r path x → At m roots r path x :=
    fun r path x place => ⟨sub r place.isRoot, place.allowed, place.reached⟩
  constructor
  case size => exact orderly.size
  case alone => exact fun r path r' path' x left right => orderly.alone r path r' path' x (wider _ _ _ left) (wider _ _ _ right)
  case marked => exact fun r path x place => orderly.marked r path x (wider r path x place)
  case waits =>
    intro x waiting
    obtain ⟨small, bit, unplaced⟩ := orderly.waits x waiting
    exact ⟨small, bit, fun r path place => unplaced r path (wider r path x place)⟩
  case zero => exact orderly.zero

theorem MemInv.userTree {s : Machine} {t : Tid} (inv : MemInv s) (kept : s.Kept t) : UserTree s.ram (s.proc t).pml4 :=
  inv.tree.orderly.restrict fun _ same => same ▸ kept.isRoot

/-- A page in another table than the program, its heap and its stack, which stay mapped. -/
theorem page_map_adds_one_boot : ∃ s after, run Machine.step (Machine.start fun _ _ => 0) bootOps = .ok s ∧
    translate s.ram.phys kernelPml4 0x401000 = some 521 ∧ pageMap s.ram kernelPml4 0x600000 = .ok after ∧
    AddsOne s.ram after kernelPml4 0x600000 ∧ translate after.phys kernelPml4 0x401000 = some 521 := by
  have evaluated : endsIn (run Machine.step (Machine.start fun _ _ => 0) bootOps) (fun s =>
      decide ((1 < s.tasks ∧ (s.proc 1).life ≠ .died) ∧ (s.proc 1).pml4 = kernelPml4 ∧
        translate s.ram.phys kernelPml4 0x401000 = some 521 ∧ translate s.ram.phys kernelPml4 0x600000 = none ∧
        endsIn (pageMap s.ram kernelPml4 0x600000) (fun _ => true) = true)) = true := by
    decide +kernel
  obtain ⟨s, ran, check⟩ := exists_of_endsIn evaluated
  obtain ⟨kept, table, heap, unmapped, maps⟩ := of_decide_eq_true check
  obtain ⟨after, map, _⟩ := exists_of_endsIn maps
  have inv := run_invariant memInv_step (memInv_start ⟨fun _ _ _ _ => rfl, fun _ _ => rfl⟩) bootOps_fresh ran
  have tree : UserTree s.ram kernelPml4 := table ▸ inv.userTree kept
  have adds := (page_map_adds_one s.ram kernelPml4 0x600000 tree (by decide) unmapped).1 after map
  exact ⟨s, after, ran, heap, map, adds, (adds.others 0x401000 (by decide) (by decide)).trans heap⟩

theorem anyPresent_iff {phys : Nat → Buffer} {cnt : Nat} :
    anyPresent phys page cnt = true ↔ ∃ i < cnt, child phys page i ≠ none := by
  induction cnt with
  | zero => simp [anyPresent]
  | succ cnt ih =>
    rw [anyPresent, Bool.or_eq_true, ih, decide_eq_true_eq]
    have entry : entryAt phys page cnt % 2 = 1 ↔ child phys page cnt ≠ none := by
      rw [child]
      split <;> simp_all
    rw [entry]
    constructor
    · intro either
      rcases either with ⟨i, less, present⟩ | present
      · exact ⟨i, Nat.lt_succ_of_lt less, present⟩
      · exact ⟨cnt, Nat.lt_succ_self cnt, present⟩
    · intro found
      obtain ⟨i, less, present⟩ := found
      rcases Nat.lt_succ_iff_lt_or_eq.mp less with less | rfl
      · exact .inl ⟨i, less, present⟩
      · exact .inr present

theorem translate_edge {depth : Nat} (found : translate m.phys root vaddr = some q) (inside : depth < 4) :
    ∃ page next, follow (child m.phys) root ((pathOf vaddr).take depth) = some page ∧
      child m.phys page (pageEntryIdx vaddr (3 - depth)) = some next ∧
      follow (child m.phys) root ((pathOf vaddr).take (depth + 1)) = some next := by
  obtain ⟨next, reached⟩ := follow_take found (depth + 1)
  have step := reached
  rw [pathOf_take vaddr inside, follow_snoc, Option.bind_eq_some_iff] at step
  obtain ⟨page, above, edge⟩ := step
  exact ⟨page, next, above, edge, reached⟩

theorem unmapScan_eq {depth paddr page next : Nat} (inside : depth < 4)
    (above : follow (child m.phys) root ((pathOf vaddr).take depth) = some page)
    (edge : child m.phys page (pageEntryIdx vaddr (3 - depth)) = some next)
    (ran : unmapScan m root vaddr (3 - depth) = .ok paddr) :
    paddr = if anyPresent m.phys next 512 then 0 else next := by
  simp only [unmapScan, bind_ok, Prod.exists] at ran
  obtain ⟨table, index, pointer, ran⟩ := ran
  have level : 3 - (3 - depth) = depth := by omega
  rw [level] at pointer
  obtain ⟨rfl, rfl⟩ := pageEntryPtr_reached inside above pointer
  have entry : entryAt m.phys table (pageEntryIdx vaddr (3 - depth)) / pgSize = next := by
    unfold child at edge
    split at edge
    · exact Option.some.inj edge
    · cases edge
  rw [entry] at ran
  split at ran
  · cases ran
  · exact ((pure_ok _ _).mp ran).symm

theorem pageEntryIdx_lt (vaddr pml : Nat) : pageEntryIdx vaddr pml < 512 := by
  rw [pageEntryIdx]
  exact Nat.mod_lt _ (by decide)

theorem unmapScan_table {depth paddr : Nat} (found : translate m.phys root vaddr = some q) (inside : depth < 3)
    (ran : unmapScan m root vaddr (3 - depth) = .ok paddr) : paddr = 0 := by
  obtain ⟨page, next, above, edge, reached⟩ := translate_edge found (show depth < 4 by omega)
  obtain ⟨table, below, reached', edge', _⟩ := translate_edge found (show depth + 1 < 4 by omega)
  have same : table = next := Option.some.inj (reached'.symm.trans reached)
  have filled : anyPresent m.phys next 512 = true := by
    rw [anyPresent_iff]
    refine ⟨pageEntryIdx vaddr (3 - (depth + 1)), pageEntryIdx_lt _ _, ?_⟩
    rw [← same, edge']
    exact Option.some_ne_none below
  rw [unmapScan_eq (by omega) above edge ran, if_pos filled]

structure Filling (m after : Ram) (root q : Nat) (buf : Buffer) : Prop where
  places : ∀ path x, At after (fun r => r = root) root path x ↔ At m (fun r => r = root) root path x
  pool : after.pool = m.pool
  phys : ∀ x, x ≠ q → after.phys x = m.phys x
  content : ∀ i < pgSize, after.phys q i = buf i

theorem fillPage_filling {buf : Buffer} (unshared : Unshared m root) (user : vaddr < 2 ^ 47)
    (found : translate m.phys root vaddr = some q) (ran : fillPage m root vaddr buf = .ok after) :
    Filling m after root q buf := by
  have leaf : At m (fun r => r = root) root (pathOf vaddr) q := ⟨rfl, pathOf_user user, found⟩
  unfold fillPage at ran
  rw [found] at ran
  dsimp only at ran
  split at ran
  · cases ran
    constructor
    case places =>
      intro path x
      apply place_congr userPath_closed
      intro r p i y allowed there
      have top : r = root := there.isRoot
      subst top
      have short : p.length < 4 := by
        have length := allowed.1
        rw [List.length_append, List.length_singleton] at length
        omega
      have other : y ≠ q := by
        intro same
        have steps := unshared p (pathOf vaddr) q (same ▸ there) leaf short
        rw [steps] at short
        exact absurd short (by simp [pathOf])
      exact child_congr (Function.update_of_ne other _ _) i
    case pool => rfl
    case phys => exact fun x other => Function.update_of_ne other _ _
    case content =>
      intro i bound
      show Function.update m.phys q (copy (m.phys q) 0 buf pgSize) q i = buf i
      rw [Function.update_self, copy_inside (Nat.zero_le i) (by omega), Nat.sub_zero]
  · cases ran

/-- What the scans of `page_unmap` find: the page itself, and none of its tables. -/
theorem unmapZeroed_eq (found : translate m.phys root vaddr = some q) (zero : ∀ i < pgSize, m.phys q i = 0)
    (ran : unmapZeroed m root vaddr = .ok after) : freeUnlessZero m q = .ok after := by
  simp only [unmapZeroed, bind_ok] at ran
  obtain ⟨p0, scan0, p1, scan1, p2, scan2, p3, scan3, m0, free0, m1, free1, m2, free2, free3⟩ := ran
  have empty1 := @unmapScan_table _ _ _ _ 2 p1 found (by decide) scan1
  have empty2 := @unmapScan_table _ _ _ _ 1 p2 found (by decide) scan2
  have empty3 := @unmapScan_table _ _ _ _ 0 p3 found (by decide) scan3
  subst empty1 empty2 empty3
  obtain ⟨page, next, above, edge, reached⟩ := translate_edge found (show 3 < 4 by decide)
  have last : next = q := Option.some.inj (reached.symm.trans found)
  subst last
  have blank : anyPresent m.phys next 512 = false := by
    rw [← Bool.not_eq_true, anyPresent_iff]
    intro found
    obtain ⟨i, bound, present⟩ := found
    exact present (child_zero zero bound)
  have scanned := @unmapScan_eq _ _ _ 3 p0 page next (by decide) above edge scan0
  rw [blank] at scanned
  simp only [Bool.false_eq_true, if_false] at scanned
  subst scanned
  cases free1
  cases free2
  cases free3
  exact free0

/-- What `page_unmap` does to the tables and the pool: nothing but to free the page, which stays mapped. -/
structure UnmapEffect (m after : Ram) (root q : Nat) : Prop where
  places : ∀ path x, At after (fun r => r = root) root path x ↔ At m (fun r => r = root) root path x
  bits : ∀ x, after.pool.bits x = (m.pool.bits x && !decide (x = q ∧ q ≠ 0))
  phys : ∀ x, x ≠ q → after.phys x = m.phys x
  zero : ∀ i < pgSize, after.phys q i = 0
  size : after.pool.bytesLen = m.pool.bytesLen

theorem unmap_effect {filled : Ram} (unshared : Unshared m root) (user : vaddr < 2 ^ 47)
    (found : translate m.phys root vaddr = some q) (fill : fillPage m root vaddr (fun _ => 0) = .ok filled)
    (ran : unmapZeroed filled root vaddr = .ok after) : UnmapEffect m after root q := by
  have zeroed := fillPage_filling unshared user found fill
  have still : translate filled.phys root vaddr = some q :=
    ((zeroed.places (pathOf vaddr) q).mpr ⟨rfl, pathOf_user user, found⟩).reached
  have freed := unmapZeroed_eq still zeroed.content ran
  unfold freeUnlessZero at freed
  split at freed
  · rename_i some
    simp only [poolFree, bind_ok, pure_ok] at freed
    obtain ⟨_, _, rfl⟩ := freed
    refine ⟨zeroed.places, ?_, zeroed.phys, zeroed.content, ?_⟩
    · intro x
      show (bitmapSet filled.pool q false).bits x = _
      rw [bitmapSet_bits, zeroed.pool]
      by_cases here : x = q
      · simp [here, some]
      · simp [here]
    · show (bitmapSet filled.pool q false).bytesLen = _
      rw [bitmapSet_bytesLen, zeroed.pool]
  · rename_i none
    cases freed
    refine ⟨zeroed.places, ?_, zeroed.phys, zeroed.content, by rw [zeroed.pool]⟩
    intro x
    rw [zeroed.pool]
    simp [none]

theorem pageUnmap_effect {s after : Machine} {t : Tid} (unshared : Unshared s.ram (s.proc t).pml4) (user : vaddr < 2 ^ 47)
    (found : translate s.ram.phys (s.proc t).pml4 vaddr = some q) (ran : pageUnmap s t vaddr = .ok after) :
    after = { s with ram := after.ram } ∧ UnmapEffect s.ram after.ram (s.proc t).pml4 q := by
  simp only [pageUnmap, bind_ok, pure_ok, access, found, Except.ok.injEq, exists_eq_left'] at ran
  obtain ⟨filled, fill, freed, unmap, rfl⟩ := ran
  exact ⟨rfl, unmap_effect unshared user found fill unmap⟩

/-- `vaddr` is no longer mapped and no other translation has changed; the page and the tables that are empty now have
    been freed, and no present entry refers to one of them. -/
structure UnmapsOne (m after : Ram) (root vaddr : Nat) : Prop where
  gone : translate after.phys root vaddr = none
  others : ∀ v < 2 ^ 47, v / pgSize ≠ vaddr / pgSize → translate after.phys root v = translate m.phys root v
  freed : ∀ x, (m.pool.bits x = true ∧ after.pool.bits x = false) ↔ translate m.phys root vaddr = some x ∨
    (∃ depth < 3, At m (fun r => r = root) root ((pathOf vaddr).take (depth + 1)) x ∧
      ∀ i < 512, child after.phys x i = none)
  apart : ∀ path x, path ≠ [] → At after (fun r => r = root) root path x →
    ¬ (m.pool.bits x = true ∧ after.pool.bits x = false)

def UnmapsRight (s : Machine) (t : Tid) (vaddr : Nat) : Prop :=
  ∃ after, pageUnmap s t vaddr = .ok after ∧ UnmapsOne s.ram after.ram (s.proc t).pml4 vaddr

/-- No entry is ever cleared, so the page stays mapped and none of its tables is found empty. -/
theorem page_unmap_keeps_entry (s : Machine) (t : Tid) (vaddr : Nat) (unshared : Unshared s.ram (s.proc t).pml4)
    (user : vaddr < 2 ^ 47) (mapped : translate s.ram.phys (s.proc t).pml4 vaddr ≠ none) : ¬ UnmapsRight s t vaddr := by
  intro ⟨after, ran, right⟩
  obtain ⟨q, found⟩ := Option.ne_none_iff_exists'.mp mapped
  obtain ⟨_, effect⟩ := pageUnmap_effect unshared user found ran
  have still := ((effect.places (pathOf vaddr) q).mpr ⟨rfl, pathOf_user user, found⟩).reached
  have gone := right.gone
  rw [translate, still] at gone
  cases gone

def mapOnce : List (Tid × MemOp) := [(1, .pageMap 0x400000)]

theorem Machine.step_live {s : Machine} {t : Tid} {op : MemOp} (live : s.live t = true) : s.step (t, op) = s.call t op := by
  rw [Machine.step, live]
  rfl

theorem Machine.kept_live {s : Machine} {t : Tid} (live : s.live t = true) : s.Kept t := by
  obtain ⟨task, alive⟩ := of_decide_eq_true live
  exact ⟨task, by rw [alive]; decide⟩

theorem mapOnce_tree {s : Machine} (ran : run Machine.step (Machine.start fun _ _ => 0) mapOnce = .ok s)
    (live : s.live 1 = true) : UserTree s.ram (s.proc 1).pml4 := by
  have fresh : meetsCheck Machine.step MapsFresh (Machine.start fun _ _ => 0) mapOnce = true := by
    decide +kernel
  have inv := run_invariant memInv_step (memInv_start ⟨fun _ _ _ _ => rfl, fun _ _ => rfl⟩) (meets_of_check fresh) ran
  exact inv.userTree (Machine.kept_live live)

theorem page_unmap_keeps_entry_once : ∃ s, run Machine.step (Machine.start fun _ _ => 0) mapOnce = .ok s ∧
    ¬ UnmapsRight s 1 0x400000 := by
  have evaluated : endsIn (run Machine.step (Machine.start fun _ _ => 0) mapOnce) (fun s =>
      decide (s.live 1 = true ∧ translate s.ram.phys (s.proc 1).pml4 0x400000 ≠ none)) = true := by
    decide +kernel
  obtain ⟨s, ran, check⟩ := exists_of_endsIn evaluated
  obtain ⟨live, mapped⟩ := of_decide_eq_true check
  exact ⟨s, ran, page_unmap_keeps_entry s 1 0x400000 (mapOnce_tree ran live).unshared (by decide) mapped⟩

/-- The page is free and still mapped, and the tables that were made for it are not freed. -/
theorem unmapped_page_translates : ∃ s after, run Machine.step (Machine.start fun _ _ => 0) mapOnce = .ok s ∧
    s.step (1, .pageUnmap 0x400000) = .ok after ∧ translate after.ram.phys kernelPml4 0x400000 = some 512 ∧
    after.ram.pool.bits 512 = false ∧ after.ram.pool.bits 513 = true ∧ after.ram.pool.bits 514 = true ∧
    after.ram.pool.bits 515 = true ∧ ¬ UnmapsRight s 1 0x400000 := by
  have evaluated : endsIn (run Machine.step (Machine.start fun _ _ => 0) mapOnce) (fun s =>
      decide (s.live 1 = true ∧ (s.proc 1).pml4 = kernelPml4) && endsIn (pageUnmap s 1 0x400000) (fun after =>
        decide (translate after.ram.phys kernelPml4 0x400000 = some 512 ∧ after.ram.pool.bits 512 = false ∧
          after.ram.pool.bits 513 = true ∧ after.ram.pool.bits 514 = true ∧ after.ram.pool.bits 515 = true))) = true := by
    decide +kernel
  obtain ⟨s, ran, rest⟩ := exists_of_endsIn evaluated
  rw [Bool.and_eq_true] at rest
  obtain ⟨live, table⟩ := of_decide_eq_true rest.1
  obtain ⟨after, unmap, check⟩ := exists_of_endsIn rest.2
  obtain ⟨found, free, kept, kept', kept''⟩ := of_decide_eq_true check
  refine ⟨s, after, ran, ?_, found, free, kept, kept', kept'', ?_⟩
  · rw [Machine.step_live live]
    exact unmap
  · intro ⟨other, ran', right⟩
    rw [unmap] at ran'
    cases ran'
    have gone := right.gone
    rw [table, found] at gone
    cases gone

theorem UnmapEffect.zero_free (effect : UnmapEffect m after root q) (tree : UserTree m root) :
    ∀ x < poolPages, after.pool.bits x = false → ∀ i < pgSize, after.phys x i = 0 := by
  intro x small free
  by_cases here : x = q
  · rw [here]
    exact effect.zero
  · rw [effect.phys x here]
    apply tree.zero x small (.inl ?_)
    rw [effect.bits, decide_eq_false (fun both => here both.1)] at free
    simpa using free

/-- Nothing is shared and every free page is zero, but a page that is still mapped is free: it is mapped again. -/
theorem page_map_takes_mapped_page : ∃ s after,
    run Machine.step (Machine.start fun _ _ => 0) (mapOnce ++ [(1, .pageUnmap 0x400000)]) = .ok s ∧
    s.ram.pool.bytesLen = poolBytesLen ∧ Unshared s.ram kernelPml4 ∧
    (∀ x < poolPages, s.ram.pool.bits x = false → ∀ i < pgSize, s.ram.phys x i = 0) ∧
    translate s.ram.phys kernelPml4 0x401000 = none ∧ pageMap s.ram kernelPml4 0x401000 = .ok after ∧
    translate after.phys kernelPml4 0x400000 = some 512 ∧ translate after.phys kernelPml4 0x401000 = some 512 ∧
    ¬ AddsOne s.ram after kernelPml4 0x401000 := by
  have evaluated : endsIn (run Machine.step (Machine.start fun _ _ => 0) mapOnce) (fun s =>
      decide (s.live 1 = true ∧ (s.proc 1).pml4 = kernelPml4 ∧ translate s.ram.phys kernelPml4 0x400000 = some 512) &&
      endsIn (pageUnmap s 1 0x400000) (fun unmapped => decide (translate unmapped.ram.phys kernelPml4 0x401000 = none) &&
        endsIn (pageMap unmapped.ram kernelPml4 0x401000) (fun after =>
          decide (translate after.phys kernelPml4 0x400000 = some 512 ∧
            translate after.phys kernelPml4 0x401000 = some 512)))) = true := by
    decide +kernel
  obtain ⟨s, ran, rest⟩ := exists_of_endsIn evaluated
  rw [Bool.and_eq_true] at rest
  obtain ⟨live, table, found⟩ := of_decide_eq_true rest.1
  obtain ⟨unmapped, unmap, rest⟩ := exists_of_endsIn rest.2
  rw [Bool.and_eq_true] at rest
  obtain ⟨after, map, check⟩ := exists_of_endsIn rest.2
  obtain ⟨first, second⟩ := of_decide_eq_true check
  have tree := mapOnce_tree ran live
  rw [← table] at found
  obtain ⟨_, effect⟩ := pageUnmap_effect tree.unshared (by decide) found unmap
  rw [table] at tree effect
  refine ⟨unmapped, after, ?_, ?_, ?_, effect.zero_free tree, of_decide_eq_true rest.1, map, first, second, ?_⟩
  · rw [run_append]
    refine ⟨s, ran, ?_⟩
    rw [run_cons]
    refine ⟨unmapped, ?_, rfl⟩
    rw [Machine.step_live live]
    exact unmap
  · rw [effect.size, tree.size]
  · intro path path' x left right short
    exact tree.unshared path path' x ((effect.places path x).mp left) ((effect.places path' x).mp right) short
  · intro adds
    obtain ⟨q, _, _, here, only, _⟩ := adds.page
    rw [second] at here
    cases here
    have same := only (pathOf 0x400000) ⟨rfl, pathOf_user (by decide), first⟩
    exact absurd same (by decide)

end RecoverOs.Memory
