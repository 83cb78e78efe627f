import RecoverOs.Memory.Paging
import Mathlib.Tactic.Set

namespace RecoverOs.Memory

open Bytes Lib Forest Transition

variable {m after : Ram} {roots pending : Nat → Prop} {root page idx vaddr q r x : Nat} {path p : List Nat}

def poolPages : Nat := 8 * poolBytesLen

def UserPath (path : List Nat) : Prop :=
  path.length ≤ 4 ∧ (∀ i ∈ path, i < 512) ∧ ∀ i, path.head? = some i → i < 256

theorem userPath_closed : Closed UserPath := by
  intro path i allowed
  obtain ⟨length, small, first⟩ := allowed
  rw [List.length_append] at length
  refine ⟨by omega, fun j member => small j (List.mem_append_left _ member), ?_⟩
  intro j head
  apply first
  cases path with
  | nil => cases head
  | cons k rest => exact head

theorem userPath_nil : UserPath [] := by
  refine ⟨by decide, ?_, ?_⟩
  · intro i member
    cases member
  · intro i head
    cases head

def At (m : Ram) (roots : Nat → Prop) (root : Nat) (path : List Nat) (page : Nat) : Prop :=
  Place (child m.phys) roots UserPath root path page

/-- `pending` are pages that have been taken from the pool and not yet been linked. -/
structure TreeInv (roots pending : Nat → Prop) (m : Ram) : Prop where
  size : m.pool.bytesLen = poolBytesLen
  separate : Separate (child m.phys) roots UserPath
  rootLow : ∀ r, roots r → r < reservedPages
  owned : ∀ r path x, At m roots r path x → path ≠ [] → reservedPages ≤ x ∧ x < poolPages ∧ m.pool.bits x = true
  marked : ∀ x, reservedPages ≤ x → x < poolPages → m.pool.bits x = true →
    pending x ∨ ∃ r path, path ≠ [] ∧ At m roots r path x
  taken : ∀ x, pending x → reservedPages ≤ x ∧ x < poolPages ∧ m.pool.bits x = true ∧ ∀ r path, ¬ At m roots r path x
  clear : ∀ x, reservedPages ≤ x → x < poolPages → m.pool.bits x = false ∨ pending x → ∀ i < pgSize, m.phys x i = 0
  reserved : ∀ x < reservedPages, m.pool.bits x = true
  packed : ∀ x y, y ≤ x → m.pool.bits x = true → m.pool.bits y = true

theorem entryAt_setEntry_here (m : Ram) (page idx : Nat) {value : Nat} (fits : value < 2 ^ 64) :
    entryAt (m.setEntry page idx value).phys page idx = value := by
  rw [entryAt]
  apply wordAt_byteOf
  · intro i bound
    simp only [Ram.setEntry, Function.update_self]
    rw [copy_inside (by omega) (by omega), Nat.add_sub_cancel_left]
  · exact fits

theorem entryAt_setEntry_other (m : Ram) (page idx value : Nat) {x j : Nat} (other : ¬ (x = page ∧ j = idx)) :
    entryAt (m.setEntry page idx value).phys x j = entryAt m.phys x j := by
  rw [entryAt, entryAt]
  apply wordAt_congr
  intro i bound
  by_cases here : x = page
  · subst here
    have apart : j ≠ idx := fun same => other ⟨rfl, same⟩
    simp only [Ram.setEntry, Function.update_self]
    exact copy_outside (by omega)
  · simp only [Ram.setEntry, Function.update_of_ne here]

theorem child_linked (m : Ram) {page idx q : Nat} (free : child m.phys page idx = none) (small : q < poolPages) :
    Linked (child m.phys) (child (m.setEntry page idx (q * pgSize + prot)).phys) page idx q := by
  have fits : q * pgSize + prot < 2 ^ 64 := by
    simp only [poolPages, poolBytesLen, pgSize, prot] at small ⊢
    omega
  refine ⟨free, ?_, ?_⟩
  · rw [child, entryAt_setEntry_here m page idx fits]
    have odd : (q * pgSize + prot) % 2 = 1 := by
      simp only [pgSize, prot]
      omega
    have number : (q * pgSize + prot) / pgSize = q := by
      simp only [pgSize, prot]
      omega
    rw [if_pos odd, number]
  · intro x j other
    rw [child, child, entryAt_setEntry_other m page idx _ other]

theorem child_congr {phys phys' : Nat → Buffer} {page : Nat} (same : phys' page = phys page) (idx : Nat) :
    child phys' page idx = child phys page idx := by
  rw [child, child, entryAt, entryAt, same]

theorem child_zero {phys : Nat → Buffer} {page idx : Nat} (zero : ∀ i < pgSize, phys page i = 0) (small : idx < 512) :
    child phys page idx = none := by
  have word : entryAt phys page idx = 0 := by
    apply wordAt_zero
    intro i bound
    apply zero
    simp only [pgSize]
    omega
  rw [child, word, if_neg (by decide)]

theorem setEntry_phys (m : Ram) (page idx value : Nat) (other : x ≠ page) :
    (m.setEntry page idx value).phys x = m.phys x := by
  simp only [Ram.setEntry, Function.update_of_ne other]

theorem poolAlloc_cases (ran : poolAlloc m = .ok (q, after)) :
    q < 8 * m.pool.bytesLen ∧ m.pool.bits q = false ∧ (∀ x < q, m.pool.bits x = true) ∧
      after = { m with pool := bitmapSet m.pool q true } := by
  unfold poolAlloc at ran
  split at ran
  · rename_i i btmp found
    cases ran
    obtain ⟨small, free, first, same⟩ := bitmapAlloc_one_some found
    exact ⟨small, free, first, by rw [same]⟩
  · cases ran

/-- No table hangs at two places, every page below the roots is marked, and every page that is free or has been taken
    and not yet linked is filled with zeros. -/
structure Orderly (roots pending : Nat → Prop) (m : Ram) : Prop where
  size : m.pool.bytesLen = poolBytesLen
  alone : ∀ r path r' path' x, At m roots r path x → At m roots r' path' x → path.length < 4 → r = r' ∧ path = path'
  marked : ∀ r path x, At m roots r path x → m.pool.bits x = true
  waits : ∀ x, pending x → x < poolPages ∧ m.pool.bits x = true ∧ ∀ r path, ¬ At m roots r path x
  zero : ∀ x < poolPages, m.pool.bits x = false ∨ pending x → ∀ i < pgSize, m.phys x i = 0

theorem TreeInv.orderly (inv : TreeInv roots pending m) : Orderly roots pending m where
  size := inv.size
  alone := fun r path r' path' x left right _ => inv.separate r path r' path' x left right
  marked := by
    intro r path x place
    by_cases top : path = []
    · subst top
      have isRoot : r = x := Option.some.inj place.reached
      exact inv.reserved x (isRoot ▸ inv.rootLow r place.isRoot)
    · exact (inv.owned r path x place top).2.2
  waits := by
    intro x waiting
    obtain ⟨_, small, bit, unplaced⟩ := inv.taken x waiting
    exact ⟨small, bit, unplaced⟩
  zero := by
    intro x small state
    by_cases low : x < reservedPages
    · rcases state with free | waiting
      · rw [inv.reserved x low] at free
        cases free
      · exact absurd (inv.taken x waiting).1 (Nat.not_le.mpr low)
    · exact inv.clear x (Nat.le_of_not_lt low) small state

theorem Orderly.alloc (orderly : Orderly roots pending m) (ran : poolAlloc m = .ok (q, after)) :
    Orderly roots (fun x => pending x ∨ x = q) after ∧ after.phys = m.phys ∧ m.pool.bits q = false ∧
      (∀ x, after.pool.bits x = (m.pool.bits x || decide (x = q))) ∧ ¬ pending q := by
  obtain ⟨small, free, _, rfl⟩ := poolAlloc_cases ran
  rw [orderly.size] at small
  have bits : ∀ x, (bitmapSet m.pool q true).bits x = (m.pool.bits x || decide (x = q)) := by
    intro x
    rw [bitmapSet_bits]
    by_cases here : x = q
    · simp [here]
    · simp [here]
  have unplaced : ∀ r path, ¬ At m roots r path q := by
    intro r path place
    rw [orderly.marked r path q place] at free
    cases free
  refine ⟨?_, rfl, free, bits, ?_⟩
  · constructor
    case size => exact orderly.size
    case alone => exact orderly.alone
    case marked =>
      intro r path x place
      rw [bits, orderly.marked r path x place, Bool.true_or]
    case waits =>
      intro x waiting
      rw [bits]
      rcases waiting with waiting | rfl
      · obtain ⟨small', bit, unplaced'⟩ := orderly.waits x waiting
        exact ⟨small', by rw [bit, Bool.true_or], unplaced'⟩
      · exact ⟨small, by simp, unplaced⟩
    case zero =>
      intro x small' state
      apply orderly.zero x small'
      rw [bits, Bool.or_eq_false_iff, decide_eq_false_iff_not] at state
      rcases state with unmarked | waiting | rfl
      · exact .inl unmarked.1
      · exact .inr waiting
      · exact .inl free
  · intro waiting
    rw [(orderly.waits q waiting).2.1] at free
    cases free

theorem Orderly.linked (orderly : Orderly roots pending m) (waiting : pending q) (place : At m roots root path page)
    (free : child m.phys page idx = none) :
    Linked (child m.phys) (child (m.setEntry page idx (q * pgSize + prot)).phys) page idx q ∧ q ≠ page ∧
      ∀ before j, UserPath (before ++ [idx] ++ [j]) → child m.phys q j = none := by
  obtain ⟨small, _, unplaced⟩ := orderly.waits q waiting
  refine ⟨child_linked m free small, fun same => unplaced root path (same ▸ place), ?_⟩
  intro before j allowed
  have zero := orderly.zero q small (.inr waiting)
  exact child_zero zero (allowed.2.1 j (List.mem_append_right _ (List.mem_singleton.mpr rfl)))

theorem Orderly.link (orderly : Orderly roots pending m) (waiting : pending q) (place : At m roots root path page)
    (allowed : UserPath (path ++ [idx])) (free : child m.phys page idx = none) :
    Orderly roots (fun x => pending x ∧ x ≠ q) (m.setEntry page idx (q * pgSize + prot)) ∧
    ∀ r p x, At (m.setEntry page idx (q * pgSize + prot)) roots r p x ↔ At m roots r p x ∨
      (x = q ∧ r = root ∧ p = path ++ [idx]) := by
  obtain ⟨_, bit, unplaced⟩ := orderly.waits q waiting
  obtain ⟨linked, apart, leaf⟩ := orderly.linked waiting place free
  have short : path.length < 4 := by
    have length := allowed.1
    rw [List.length_append, List.length_singleton] at length
    omega
  have places : ∀ r p x, At (m.setEntry page idx (q * pgSize + prot)) roots r p x ↔ At m roots r p x ∨
      (x = q ∧ r = root ∧ p = path ++ [idx]) := by
    intro r p x
    rw [At, place_linked userPath_closed linked leaf apart]
    apply or_congr Iff.rfl
    apply and_congr Iff.rfl
    constructor
    · intro ⟨before, same, _, there⟩
      obtain ⟨rfl, rfl⟩ := orderly.alone root path r before page place there short
      exact ⟨rfl, same⟩
    · intro ⟨sameRoot, same⟩
      subst sameRoot same
      exact ⟨path, rfl, allowed, place⟩
  refine ⟨?_, places⟩
  constructor
  case size => exact orderly.size
  case alone =>
    intro r p r' p' x left right table
    rcases (places r p x).mp left with old | ⟨rfl, rfl, rfl⟩
    · rcases (places r' p' x).mp right with old' | ⟨rfl, _⟩
      · exact orderly.alone r p r' p' x old old' table
      · exact absurd old (unplaced r p)
    · rcases (places r' p' x).mp right with old' | ⟨_, rfl, rfl⟩
      · exact absurd old' (unplaced r' p')
      · exact ⟨rfl, rfl⟩
  case marked =>
    intro r p x placed
    rcases (places r p x).mp placed with old | ⟨rfl, _⟩
    · exact orderly.marked r p x old
    · exact bit
  case waits =>
    intro x ⟨still, other⟩
    obtain ⟨small', bit', unplaced'⟩ := orderly.waits x still
    refine ⟨small', bit', ?_⟩
    intro r p placed
    rcases (places r p x).mp placed with old | ⟨here, _⟩
    · exact unplaced' r p old
    · exact other here
  case zero =>
    intro x small' state i bound
    have still : m.pool.bits x = false ∨ pending x := state.imp id fun both => both.1
    have other : x ≠ page := by
      intro here
      rcases still with unmarked | waiting'
      · rw [here, orderly.marked root path page place] at unmarked
        cases unmarked
      · exact (orderly.waits x waiting').2.2 root path (here ▸ place)
    rw [setEntry_phys m page idx _ other]
    exact orderly.zero x small' still i bound

theorem TreeInv.link (inv : TreeInv roots pending m) (isPending : pending q) (place : At m roots root path page)
    (allowed : UserPath (path ++ [idx])) (free : child m.phys page idx = none) :
    TreeInv roots (fun x => pending x ∧ x ≠ q) (m.setEntry page idx (q * pgSize + prot)) ∧
    ∀ r p x, At (m.setEntry page idx (q * pgSize + prot)) roots r p x ↔ At m roots r p x ∨
      (x = q ∧ r = root ∧ p = path ++ [idx]) := by
  obtain ⟨low, small, bit, unplaced⟩ := inv.taken q isPending
  obtain ⟨linked, apart, leaf⟩ := inv.orderly.linked isPending place free
  obtain ⟨orderly, places⟩ := inv.orderly.link isPending place allowed free
  refine ⟨?_, places⟩
  constructor
  case size => exact inv.size
  case separate => exact inv.separate.linked userPath_closed linked unplaced leaf apart
  case rootLow => exact inv.rootLow
  case owned =>
    intro r p x placed nonempty
    rcases (places r p x).mp placed with old | ⟨rfl, _⟩
    · exact inv.owned r p x old nonempty
    · exact ⟨low, small, bit⟩
  case marked =>
    intro x low' small' bit'
    rcases inv.marked x low' small' bit' with waiting | ⟨r, p, nonempty, old⟩
    · by_cases here : x = q
      · subst here
        refine .inr ⟨root, path ++ [idx], by simp, ?_⟩
        exact (places root (path ++ [idx]) x).mpr (.inr ⟨rfl, rfl, rfl⟩)
      · exact .inl ⟨waiting, here⟩
    · exact .inr ⟨r, p, nonempty, (places r p x).mpr (.inl old)⟩
  case taken => exact fun x waiting => ⟨(inv.taken x waiting.1).1, orderly.waits x waiting⟩
  case clear => exact fun x _ small' => orderly.zero x small'
  case reserved => exact inv.reserved
  case packed => exact inv.packed

theorem TreeInv.alloc (inv : TreeInv roots pending m) (ran : poolAlloc m = .ok (q, after)) :
    TreeInv roots (fun x => pending x ∨ x = q) after ∧ after.phys = m.phys ∧ m.pool.bits q = false ∧ ¬ pending q ∧
      reservedPages ≤ q ∧ q < poolPages := by
  obtain ⟨orderly, same, free, bits, notPending⟩ := inv.orderly.alloc ran
  obtain ⟨small, _, first, rfl⟩ := poolAlloc_cases ran
  rw [inv.size] at small
  have low : reservedPages ≤ q := by
    by_contra high
    rw [inv.reserved q (Nat.not_le.mp high)] at free
    cases free
  have still : ∀ x, m.pool.bits x = true → (bitmapSet m.pool q true).bits x = true := by
    intro x bit
    rw [bits, bit, Bool.true_or]
  refine ⟨?_, same, free, notPending, low, small⟩
  constructor
  case size => exact inv.size
  case separate => exact inv.separate
  case rootLow => exact inv.rootLow
  case owned =>
    intro r path x place nonempty
    obtain ⟨low', small', bit⟩ := inv.owned r path x place nonempty
    exact ⟨low', small', still x bit⟩
  case marked =>
    intro x low' small' bit
    rw [bits, Bool.or_eq_true, decide_eq_true_eq] at bit
    rcases bit with old | here
    · exact (inv.marked x low' small' old).imp_left .inl
    · exact .inl (.inr here)
  case taken =>
    intro x waiting
    refine ⟨?_, orderly.waits x waiting⟩
    rcases waiting with waiting | rfl
    · exact (inv.taken x waiting).1
    · exact low
  case clear => exact fun x _ small' => orderly.zero x small'
  case reserved => exact fun x below => still x (inv.reserved x below)
  case packed =>
    intro x y below bit
    rw [bits, Bool.or_eq_true, decide_eq_true_eq] at bit
    rcases bit with old | rfl
    · exact still y (inv.packed x y below old)
    · by_cases here : y = x
      · rw [bits, here, decide_eq_true rfl, Bool.or_true]
      · exact still y (first y (by omega))

theorem pathOf_take {depth : Nat} (vaddr : Nat) (inside : depth < 4) :
    (pathOf vaddr).take (depth + 1) = (pathOf vaddr).take depth ++ [pageEntryIdx vaddr (3 - depth)] := by
  match depth, inside with
  | 0, _ => rfl
  | 1, _ => rfl
  | 2, _ => rfl
  | 3, _ => rfl

theorem pathOf_user (user : vaddr < 2 ^ 47) : UserPath (pathOf vaddr) := by
  refine ⟨by simp [pathOf], ?_, ?_⟩
  · intro i member
    simp only [pathOf, List.mem_cons, List.not_mem_nil, or_false] at member
    rcases member with rfl | rfl | rfl | rfl
    all_goals exact Nat.mod_lt _ (by decide)
  · intro i head
    cases head
    simp only [pageEntryIdx]
    omega

theorem pathOf_take_user {depth : Nat} (user : vaddr < 2 ^ 47) (inside : depth ≤ 4) :
    UserPath ((pathOf vaddr).take depth) := by
  obtain ⟨_, small, first⟩ := pathOf_user user
  refine ⟨?_, fun i member => small i (List.mem_of_mem_take member), ?_⟩
  · rw [List.length_take]
    omega
  · intro i head
    apply first
    cases depth with
    | zero => cases head
    | succ depth => exact head

theorem pageEntryPtr_reached {depth : Nat} (inside : depth < 4)
    (reached : follow (child m.phys) root ((pathOf vaddr).take depth) = some x)
    (ran : pageEntryPtr m root vaddr depth = .ok (page, idx)) : page = x ∧ idx = pageEntryIdx vaddr (3 - depth) := by
  induction depth generalizing page idx x with
  | zero =>
    cases ran
    exact ⟨Option.some.inj reached, rfl⟩
  | succ depth ih =>
    simp only [pageEntryPtr, bind_ok, Prod.exists] at ran
    obtain ⟨table, index, above, ran⟩ := ran
    rw [pathOf_take vaddr (by omega), follow_snoc, Option.bind_eq_some_iff] at reached
    obtain ⟨before, earlier, edge⟩ := reached
    obtain ⟨rfl, rfl⟩ := ih (by omega) earlier above
    unfold child at edge
    split at edge
    · split at ran
      · cases ran
        exact ⟨Option.some.inj edge, rfl⟩
      · cases ran
    · cases edge

/-- What one turn of the loop of `page_map` does once it has found the table. -/
theorem mapLevel_cases {paddr depth : Nat} (inside : depth < 4)
    (reached : follow (child m.phys) root ((pathOf vaddr).take depth) = some page)
    (ran : mapLevel m root vaddr paddr depth = .ok after) :
    (∃ x, child m.phys page (pageEntryIdx vaddr (3 - depth)) = some x ∧ after = m) ∨
    (child m.phys page (pageEntryIdx vaddr (3 - depth)) = none ∧
      ((depth < 3 ∧ ∃ q allocated, poolAlloc m = .ok (q, allocated) ∧
          after = allocated.setEntry page (pageEntryIdx vaddr (3 - depth)) (q * pgSize + prot)) ∨
        (depth = 3 ∧ after = m.setEntry page (pageEntryIdx vaddr (3 - depth)) (paddr * pgSize + prot)))) := by
  simp only [mapLevel, bind_ok, Prod.exists] at ran
  obtain ⟨table, index, pointer, ran⟩ := ran
  obtain ⟨rfl, rfl⟩ := pageEntryPtr_reached inside reached pointer
  split at ran
  · rename_i present
    cases ran
    exact .inl ⟨_, by rw [child, if_pos present], rfl⟩
  · rename_i absent
    refine .inr ⟨by rw [child, if_neg absent], ?_⟩
    by_cases last : depth = 3
    · rw [if_pos last] at ran
      simp only [bind_ok, pure_ok, Prod.exists, Except.ok.injEq, Prod.mk.injEq] at ran
      obtain ⟨_, _, ⟨rfl, rfl⟩, rfl⟩ := ran
      exact .inr ⟨last, rfl⟩
    · rw [if_neg last] at ran
      simp only [bind_ok, pure_ok, Prod.exists] at ran
      obtain ⟨q, allocated, alloc, rfl⟩ := ran
      exact .inl ⟨by omega, q, allocated, alloc, rfl⟩

structure Grows (roots : Nat → Prop) (m after : Ram) : Prop where
  leaves : ∀ r p x, p.length = 4 → (At after roots r p x ↔ At m roots r p x)
  data : ∀ r p x, p.length = 4 → At m roots r p x → after.phys x = m.phys x
  bits : ∀ x, m.pool.bits x = true → after.pool.bits x = true

theorem Grows.refl (m : Ram) : Grows roots m m := ⟨fun _ _ _ _ => Iff.rfl, fun _ _ _ _ _ => rfl, fun _ => id⟩

theorem Grows.trans {middle : Ram} (first : Grows roots m middle) (second : Grows roots middle after) :
    Grows roots m after where
  leaves := fun r p x last => (second.leaves r p x last).trans (first.leaves r p x last)
  data := by
    intro r p x last place
    rw [second.data r p x last ((first.leaves r p x last).mpr place), first.data r p x last place]
  bits := fun x bit => second.bits x (first.bits x bit)

theorem TreeInv.not_leaf (inv : TreeInv roots pending m) (place : At m roots root path page) (short : path.length ≠ 4)
    (leaf : At m roots r p x) (last : p.length = 4) : x ≠ page := by
  intro same
  subst same
  obtain ⟨_, steps⟩ := inv.separate root path r p x place leaf
  exact short (steps ▸ last)

theorem mapLevel_table {paddr depth : Nat} (inv : TreeInv roots pending m) (user : vaddr < 2 ^ 47) (inside : depth < 3)
    (place : At m roots root ((pathOf vaddr).take depth) page) (ran : mapLevel m root vaddr paddr depth = .ok after) :
    TreeInv roots pending after ∧ Grows roots m after ∧ ∃ x, At after roots root ((pathOf vaddr).take (depth + 1)) x := by
  have allowed : UserPath ((pathOf vaddr).take depth ++ [pageEntryIdx vaddr (3 - depth)]) := by
    rw [← pathOf_take vaddr (by omega)]
    exact pathOf_take_user user (by omega)
  rw [pathOf_take vaddr (by omega)]
  rcases mapLevel_cases (by omega) place.reached ran with ⟨x, edge, rfl⟩ | ⟨free, ⟨_, q, allocated, alloc, rfl⟩ | ⟨last, _⟩⟩
  · exact ⟨inv, .refl _, _, place.snoc allowed edge⟩
  · obtain ⟨allocInv, same, _, notPending, _, _⟩ := inv.alloc alloc
    have placed : At allocated roots root ((pathOf vaddr).take depth) page := by
      rw [At, same]
      exact place
    obtain ⟨linkInv, places⟩ := allocInv.link (.inr rfl) placed allowed (by rw [same]; exact free)
    have leftover : (fun x => (pending x ∨ x = q) ∧ x ≠ q) = pending := by
      funext x
      apply propext
      constructor
      · intro ⟨waiting, other⟩
        exact waiting.resolve_right other
      · intro waiting
        exact ⟨.inl waiting, fun here => notPending (here ▸ waiting)⟩
    rw [leftover] at linkInv
    refine ⟨linkInv, ⟨?_, ?_, ?_⟩, q, ?_⟩
    · intro r p x last
      rw [places, At, At, same]
      apply or_iff_left
      intro ⟨_, _, steps⟩
      rw [steps, List.length_append, List.length_take] at last
      simp at last
      omega
    · intro r p x last leaf
      have other := inv.not_leaf place (by rw [List.length_take]; omega) leaf last
      rw [setEntry_phys allocated page _ _ other, same]
    · intro x bit
      obtain ⟨_, _, _, rfl⟩ := poolAlloc_cases alloc
      show (bitmapSet m.pool q true).bits x = true
      rw [bitmapSet_bits]
      split
      · rfl
      · exact bit
    · exact (places _ _ _).mpr (.inr ⟨rfl, rfl, rfl⟩)
  · omega

theorem mapLevels_table {paddr cnt : Nat} (inv : TreeInv roots pending m) (isRoot : roots root) (user : vaddr < 2 ^ 47)
    (inside : cnt ≤ 3) (ran : mapLevels m root vaddr paddr cnt = .ok after) :
    TreeInv roots pending after ∧ Grows roots m after ∧ ∃ x, At after roots root ((pathOf vaddr).take cnt) x := by
  induction cnt generalizing after with
  | zero =>
    cases ran
    exact ⟨inv, .refl m, root, isRoot, userPath_nil, rfl⟩
  | succ cnt ih =>
    simp only [mapLevels, bind_ok] at ran
    obtain ⟨middle, first, last⟩ := ran
    obtain ⟨middleInv, grown, x, place⟩ := ih (by omega) first
    obtain ⟨afterInv, more, y, next⟩ := mapLevel_table middleInv user (by omega) place last
    exact ⟨afterInv, grown.trans more, y, next⟩

/-- `vaddr` has got a page that was free and holds `buf`, and nothing else has changed for the tasks. -/
structure Mapped (roots : Nat → Prop) (m after : Ram) (root vaddr q : Nat) (buf : Buffer) : Prop where
  inv : TreeInv roots (fun _ => False) after
  apart : ∀ r p x, p.length = 4 → At m roots r p x → x ≠ q
  leaves : ∀ r p x, p.length = 4 →
    (At after roots r p x ↔ At m roots r p x ∨ (x = q ∧ r = root ∧ p = pathOf vaddr))
  data : ∀ r p x, p.length = 4 → At m roots r p x → after.phys x = m.phys x
  content : ∀ i < pgSize, after.phys q i = buf i

theorem translate_at (isRoot : roots root) (user : vaddr < 2 ^ 47) :
    translate m.phys root vaddr = some x ↔ At m roots root (pathOf vaddr) x :=
  ⟨fun found => ⟨isRoot, pathOf_user user, found⟩, fun place => place.reached⟩

theorem pageMap_mapped (inv : TreeInv roots (fun _ => False) m) (isRoot : roots root) (user : vaddr < 2 ^ 47)
    (unmapped : translate m.phys root vaddr = none) (ran : pageMap m root vaddr = .ok after) :
    ∃ q, Mapped roots m after root vaddr q fun _ => 0 := by
  simp only [pageMap, bind_ok, Prod.exists] at ran
  obtain ⟨q, allocated, alloc, ran⟩ := ran
  obtain ⟨allocInv, same, fresh, _, low, small⟩ := inv.alloc alloc
  rw [mapLevels, bind_ok] at ran
  obtain ⟨tables, levels, last⟩ := ran
  obtain ⟨tablesInv, grown, page, place⟩ := mapLevels_table allocInv isRoot user (Nat.le_refl 3) levels
  have whole : (pathOf vaddr).take 3 ++ [pageEntryIdx vaddr (3 - 3)] = pathOf vaddr := (pathOf_take vaddr (by decide)).symm
  have length : (pathOf vaddr).length = 4 := rfl
  have before : ∀ r p x, At allocated roots r p x ↔ At m roots r p x := by
    intro r p x
    rw [At, At, same]
  have free : child tables.phys page (pageEntryIdx vaddr (3 - 3)) = none := by
    cases edge : child tables.phys page (pageEntryIdx vaddr (3 - 3)) with
    | none => rfl
    | some x =>
      have found : At tables roots root (pathOf vaddr) x := by
        rw [← whole]
        exact place.snoc (by rw [whole]; exact pathOf_user user) edge
      have earlier := (before _ _ _).mp ((grown.leaves _ _ _ length).mp found)
      exact earlier.reached.symm.trans unmapped
  have pendingNow : (fun x => False ∨ x = q) q := .inr rfl
  rcases mapLevel_cases (by decide) place.reached last with ⟨x, present, _⟩ | ⟨_, ⟨deep, _⟩ | ⟨_, rfl⟩⟩
  · rw [free] at present
    cases present
  · exact absurd deep (by decide)
  have allowed : UserPath ((pathOf vaddr).take 3 ++ [pageEntryIdx vaddr (3 - 3)]) := by
    rw [whole]
    exact pathOf_user user
  obtain ⟨linkInv, places⟩ := tablesInv.link pendingNow place allowed free
  have leftover : (fun x => (False ∨ x = q) ∧ x ≠ q) = fun _ => False := by
    funext x
    apply propext
    constructor
    · intro left
      exact left.2 (left.1.resolve_left id)
    · exact False.elim
  rw [leftover] at linkInv
  rw [whole] at places
  refine ⟨q, linkInv, ?_, ?_, ?_, ?_⟩
  · intro r p x last leaf here
    have nonempty : p ≠ [] := fun empty => by
      rw [empty] at last
      cases last
    rw [← here, (inv.owned r p x leaf nonempty).2.2] at fresh
    cases fresh
  · intro r p x last
    rw [places, grown.leaves r p x last, before]
  · intro r p x last leaf
    have kept := (grown.leaves r p x last).mpr ((before r p x).mpr leaf)
    have other := tablesInv.not_leaf place (by rw [List.length_take]; omega) kept last
    rw [setEntry_phys tables page _ _ other, grown.data r p x last ((before r p x).mpr leaf), same]
  · intro i bound
    have other : q ≠ page := fun here => (tablesInv.taken q pendingNow).2.2.2 root _ (here ▸ place)
    rw [setEntry_phys tables page _ _ other]
    exact tablesInv.clear q low small (.inr pendingNow) i bound

theorem TreeInv.write (inv : TreeInv roots (fun _ => False) m) {path : List Nat} (place : At m roots root path page)
    (leaf : path.length = 4) (buf : Buffer) :
    TreeInv roots (fun _ => False) { m with phys := Function.update m.phys page buf } ∧
    ∀ r p x, At { m with phys := Function.update m.phys page buf } roots r p x ↔ At m roots r p x := by
  have places : ∀ r p x, At { m with phys := Function.update m.phys page buf } roots r p x ↔ At m roots r p x := by
    intro r p x
    apply place_congr userPath_closed
    intro r' p' i y allowed there
    have short : p'.length ≠ 4 := by
      have length := allowed.1
      rw [List.length_append, List.length_singleton] at length
      omega
    have other : y ≠ page := (inv.not_leaf there short place leaf).symm
    exact child_congr (Function.update_of_ne other _ _) i
  refine ⟨?_, places⟩
  have nonempty : path ≠ [] := by
    intro empty
    rw [empty] at leaf
    cases leaf
  constructor
  case size => exact inv.size
  case separate =>
    intro r p r' p' y left right
    exact inv.separate r p r' p' y ((places r p y).mp left) ((places r' p' y).mp right)
  case rootLow => exact inv.rootLow
  case owned => exact fun r p y there => inv.owned r p y ((places r p y).mp there)
  case marked =>
    intro y low small bit
    rcases inv.marked y low small bit with waiting | ⟨r, p, some, there⟩
    · exact .inl waiting
    · exact .inr ⟨r, p, some, (places r p y).mpr there⟩
  case taken => exact fun y waiting => waiting.elim
  case clear =>
    intro y low small state i bound
    have other : y ≠ page := by
      intro here
      rcases state with unmarked | waiting
      · rw [here, (inv.owned root path page place nonempty).2.2] at unmarked
        cases unmarked
      · exact waiting
    simp only [Function.update_of_ne other]
    exact inv.clear y low small state i bound
  case reserved => exact inv.reserved
  case packed => exact inv.packed

theorem TreeInv.new_root {new : Nat} {phys : Nat → Buffer} (inv : TreeInv roots (fun _ => False) m)
    (low : new < reservedPages) (fresh : ¬ roots new) (others : ∀ x, x ≠ new → phys x = m.phys x)
    (zero : ∀ i < pgSize / 2, phys new i = 0) :
    TreeInv (fun r => roots r ∨ r = new) (fun _ => False) { m with phys := phys } ∧
    ∀ r p x, At { m with phys := phys } (fun r => roots r ∨ r = new) r p x ↔
      At m roots r p x ∨ (r = new ∧ p = [] ∧ x = new) := by
  have none : ∀ i < 256, child phys new i = none := by
    intro i bound
    have word : entryAt phys new i = 0 := by
      apply wordAt_zero
      intro k small
      apply zero
      simp only [pgSize]
      omega
    rw [child, word, if_neg (by decide)]
  have apart : ∀ r p x, At m roots r p x → x ≠ new := by
    intro r p x place here
    by_cases top : p = []
    · subst top
      have same : r = x := Option.some.inj place.reached
      exact fresh (here ▸ same ▸ place.isRoot)
    · have high := (inv.owned r p x place top).1
      omega
  have follows : ∀ r p, roots r → UserPath p → follow (child phys) r p = follow (child m.phys) r p := by
    intro r p isRoot allowed
    apply follow_congr userPath_closed isRoot _ allowed
    intro p' i x _ place
    exact child_congr (others x (apart r p' x place)) i
  have places : ∀ r p x, At { m with phys := phys } (fun r => roots r ∨ r = new) r p x ↔
      At m roots r p x ∨ (r = new ∧ p = [] ∧ x = new) := by
    intro r p x
    constructor
    · intro place
      rcases place.isRoot with old | rfl
      · refine .inl ⟨old, place.allowed, ?_⟩
        rw [← follows r p old place.allowed]
        exact place.reached
      · right
        cases p with
        | nil => exact ⟨rfl, rfl, (Option.some.inj place.reached).symm⟩
        | cons i rest =>
          have reached := place.reached
          rw [follow, none i (place.allowed.2.2 i rfl)] at reached
          cases reached
    · intro either
      rcases either with place | ⟨rfl, rfl, rfl⟩
      · refine ⟨.inl place.isRoot, place.allowed, ?_⟩
        rw [← place.reached]
        exact follows r p place.isRoot place.allowed
      · exact ⟨.inr rfl, userPath_nil, rfl⟩
  refine ⟨?_, places⟩
  constructor
  case size => exact inv.size
  case separate =>
    intro r p r' p' x left right
    rcases (places r p x).mp left with old | ⟨isNew, top, here⟩
    · rcases (places r' p' x).mp right with old' | ⟨_, _, here⟩
      · exact inv.separate r p r' p' x old old'
      · exact absurd here (apart r p x old)
    · rcases (places r' p' x).mp right with old' | ⟨isNew', top', _⟩
      · exact absurd here (apart r' p' x old')
      · exact ⟨isNew.trans isNew'.symm, top.trans top'.symm⟩
  case rootLow =>
    intro r isRoot
    rcases isRoot with old | rfl
    · exact inv.rootLow r old
    · exact low
  case owned =>
    intro r p x place nonempty
    rcases (places r p x).mp place with old | ⟨_, empty, _⟩
    · exact inv.owned r p x old nonempty
    · exact absurd empty nonempty
  case marked =>
    intro x low' small bit
    rcases inv.marked x low' small bit with waiting | ⟨r, p, nonempty, place⟩
    · exact .inl waiting
    · exact .inr ⟨r, p, nonempty, (places r p x).mpr (.inl place)⟩
  case taken => exact fun x waiting => waiting.elim
  case clear =>
    intro x low' small state i bound
    have other : x ≠ new := by omega
    show phys x i = 0
    rw [others x other]
    exact inv.clear x low' small state i bound
  case reserved => exact inv.reserved
  case packed => exact inv.packed

end RecoverOs.Memory
