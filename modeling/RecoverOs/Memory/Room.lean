import RecoverOs.Memory.PageMap

namespace RecoverOs.Memory

open Bytes Lib Forest Transition

variable {m : Ram} {roots pending : Nat → Prop} {root page vaddr x k : Nat}

def Room (cnt : Nat) (m : Ram) : Prop := m.pool.bits (memPages - cnt) = false

instance (cnt : Nat) (m : Ram) : Decidable (Room cnt m) := inferInstanceAs (Decidable (_ = _))

theorem TreeInv.room_less (inv : TreeInv roots pending m) {cnt : Nat} (less : k ≤ cnt) (room : Room cnt m) : Room k m := by
  rw [Room, ← Bool.not_eq_true]
  intro marked
  have below : memPages - cnt ≤ memPages - k := by omega
  have both := inv.packed _ _ below marked
  rw [Room] at room
  rw [room] at both
  cases both

theorem TreeInv.linked_low (inv : TreeInv roots pending m) (room : Room 0 m) {path : List Nat}
    (place : At m roots root path x) (nonempty : path ≠ []) : x < memPages := by
  have marked := (inv.owned root path x place nonempty).2.2
  by_contra high
  have beyond := inv.packed x memPages (Nat.le_of_not_lt high) marked
  have free : m.pool.bits memPages = false := room
  rw [free] at beyond
  cases beyond

theorem poolAlloc_room (inv : TreeInv roots pending m) (inside : k < memPages) (room : Room (k + 1) m) :
    ∃ q after, poolAlloc m = .ok (q, after) ∧ Room k after := by
  have free : m.pool.bits (memPages - (k + 1)) = false := room
  cases found : bitmapAlloc m.pool 1 with
  | none =>
    have full := bitmapAlloc_one_none found (memPages - (k + 1))
    rw [inv.size] at full
    rw [full (by simp only [memPages, poolBytesLen, pgSize]; omega)] at free
    cases free
  | some result =>
    obtain ⟨q, btmp⟩ := result
    have ran : poolAlloc m = .ok (q, { m with pool := btmp }) := by rw [poolAlloc, found]
    refine ⟨q, _, ran, ?_⟩
    obtain ⟨_, _, first, same⟩ := bitmapAlloc_one_some found
    have low : q ≤ memPages - (k + 1) := by
      by_contra high
      rw [first _ (Nat.lt_of_not_le high)] at free
      cases free
    have later : Room k m := inv.room_less (Nat.le_succ k) room
    rw [Room] at later ⊢
    show btmp.bits (memPages - k) = false
    rw [same, bitmapSet_bits, if_neg (by omega)]
    exact later

def TablesInRam (roots : Nat → Prop) (m : Ram) : Prop :=
  ∀ r path x, path ≠ [] → path.length < 4 → At m roots r path x → x < memPages

theorem pageEntryPtr_low {depth : Nat} (low : TablesInRam roots m) (inside : depth < 4)
    (place : At m roots root ((pathOf vaddr).take depth) page) :
    pageEntryPtr m root vaddr depth = .ok (page, pageEntryIdx vaddr (3 - depth)) := by
  induction depth generalizing page with
  | zero =>
    have top : root = page := Option.some.inj place.reached
    rw [pageEntryPtr, top]
  | succ depth ih =>
    have short : ((pathOf vaddr).take (depth + 1)).length < 4 := by
      rw [List.length_take]
      omega
    have inRam := low root _ page (by simp [pathOf]) short place
    rw [pathOf_take vaddr (by omega)] at place
    obtain ⟨table, above, edge⟩ := place.init userPath_closed
    have entry : entryAt m.phys table (pageEntryIdx vaddr (3 - depth)) / pgSize = page := by
      unfold child at edge
      split at edge
      · exact Option.some.inj edge
      · cases edge
    rw [pageEntryPtr, ih (by omega) above]
    show (if entryAt m.phys table (pageEntryIdx vaddr (3 - depth)) / pgSize < memPages then _ else _) = _
    rw [entry, if_pos inRam]
    rfl

theorem pageEntryPtr_ok {depth : Nat} (inv : TreeInv roots pending m) (room : Room 0 m) (inside : depth < 4)
    (place : At m roots root ((pathOf vaddr).take depth) page) :
    pageEntryPtr m root vaddr depth = .ok (page, pageEntryIdx vaddr (3 - depth)) :=
  pageEntryPtr_low (fun _ _ _ nonempty _ there => inv.linked_low room there nonempty) inside place

theorem mapLevel_room {paddr depth : Nat} (inv : TreeInv roots pending m) (inside : depth < 3) (few : k < memPages)
    (place : At m roots root ((pathOf vaddr).take depth) page) (room : Room (k + 1) m) :
    ∃ after, mapLevel m root vaddr paddr depth = .ok after ∧ Room k after := by
  have pointer := pageEntryPtr_ok inv (inv.room_less (Nat.zero_le _) room) (by omega) place
  by_cases present : entryAt m.phys page (pageEntryIdx vaddr (3 - depth)) % 2 = 1
  · refine ⟨m, ?_, inv.room_less (Nat.le_succ k) room⟩
    simp only [mapLevel, pointer, bind_ok, Except.ok.injEq, exists_eq_left', if_pos present, pure_ok]
  · obtain ⟨q, allocated, alloc, left⟩ := poolAlloc_room inv few room
    refine ⟨allocated.setEntry page (pageEntryIdx vaddr (3 - depth)) (q * pgSize + prot), ?_, left⟩
    have higher : depth ≠ 3 := by omega
    simp only [mapLevel, pointer, bind_ok, Except.ok.injEq, exists_eq_left', if_neg present, if_neg higher, alloc, pure_ok]

theorem mapLevels_room {paddr cnt : Nat} (inv : TreeInv roots pending m) (isRoot : roots root) (user : vaddr < 2 ^ 47)
    (inside : cnt ≤ 3) (few : k + cnt < memPages) (room : Room (k + cnt) m) :
    ∃ after, mapLevels m root vaddr paddr cnt = .ok after ∧ Room k after := by
  induction cnt generalizing k with
  | zero => exact ⟨m, rfl, room⟩
  | succ cnt ih =>
    obtain ⟨middle, levels, left⟩ := @ih (k + 1) (by omega) (by omega) (by rw [Nat.add_assoc, Nat.add_comm 1]; exact room)
    obtain ⟨middleInv, _, table, place⟩ := mapLevels_table inv isRoot user (by omega) levels
    obtain ⟨after, level, rest⟩ := @mapLevel_room middle roots pending root table vaddr k paddr cnt middleInv (by omega)
      (by omega) place left
    refine ⟨after, ?_, rest⟩
    simp only [mapLevels, levels, bind_ok, Except.ok.injEq, exists_eq_left', level]

theorem pageMap_room (inv : TreeInv roots (fun _ => False) m) (isRoot : roots root) (user : vaddr < 2 ^ 47)
    (room : Room 4 m) : ∃ after, pageMap m root vaddr = .ok after ∧ Room 0 after := by
  obtain ⟨q, allocated, alloc, left⟩ := poolAlloc_room inv (by decide) room
  obtain ⟨allocInv, _⟩ := inv.alloc alloc
  obtain ⟨tables, levels, rest⟩ := @mapLevels_room allocated roots _ root vaddr 0 q 3 allocInv isRoot user (Nat.le_refl 3)
    (by decide) left
  obtain ⟨tablesInv, _, page, place⟩ := mapLevels_table allocInv isRoot user (Nat.le_refl 3) levels
  have pointer := pageEntryPtr_ok tablesInv rest (by decide) place
  have last : ∃ after, mapLevel tables root vaddr q 3 = .ok after ∧ Room 0 after := by
    by_cases present : entryAt tables.phys page (pageEntryIdx vaddr (3 - 3)) % 2 = 1
    · refine ⟨tables, ?_, rest⟩
      simp only [mapLevel, pointer, bind_ok, Except.ok.injEq, exists_eq_left', if_pos present, pure_ok]
    · refine ⟨tables.setEntry page (pageEntryIdx vaddr (3 - 3)) (q * pgSize + prot), ?_, rest⟩
      simp only [mapLevel, pointer, bind_ok, Except.ok.injEq, exists_eq_left', if_neg present, if_true, pure_ok]
  obtain ⟨after, level, room⟩ := last
  have turns : mapLevels allocated root vaddr q 4 = .ok after := by
    rw [mapLevels, bind_ok]
    exact ⟨tables, levels, level⟩
  refine ⟨after, ?_, room⟩
  rw [pageMap, bind_ok]
  exact ⟨(q, allocated), alloc, turns⟩

end RecoverOs.Memory
