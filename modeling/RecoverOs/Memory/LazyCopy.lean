import RecoverOs.Memory.Translation

namespace RecoverOs.Memory

open Bytes Lib Forest Transition

variable {s after : Machine} {T : Nat → Tid} {t : Tid} {n v root : Nat}

/-- A page fault of the running task `t` at `vaddr` under the table `cr3`, handled with at most this many activations of
    the handler. A copy from a parent that lacks the page faults at the start of the page, and that is again a fault of
    `t`. Every activation starts at the top of the same stack, so that one that returned to the copy would have
    overwritten the frame of the one before. -/
def faultWithin (s : Machine) (t : Tid) : Nat → Nat → Nat → Except Halt Machine
  | 0, _, _ => .error .stuck
  | left + 1, cr3, vaddr =>
    if inRg (s.proc t).addrSpace vaddr then
      let parent := (s.proc t).parentTask
      match translate s.ram.phys (s.proc parent).pml4 (pageStart vaddr) with
      | some _ => copyPage s (pageStart vaddr) t parent
      | none => do
        let _ ← faultWithin s t left (s.proc parent).pml4 (pageStart vaddr)
        .error .fault
    else if inHeap (s.proc t).addrSpace vaddr then do
      let ram ← pageMap s.ram cr3 (pageStart vaddr)
      return { s with ram := ram }
    else .error .stuck

/-- The number of activations is only a bound. -/
theorem faultWithin_iff : (∃ left, faultWithin s t left (s.proc t).pml4 v = .ok after) ↔ intrPageHandle s t v = .ok after := by
  have once : ∀ left, faultWithin s t (left + 1) (s.proc t).pml4 v = .ok after ↔ intrPageHandle s t v = .ok after := by
    intro left
    rw [faultWithin, intrPageHandle]
    split
    · dsimp only
      cases found : translate s.ram.phys (s.proc (s.proc t).parentTask).pml4 (pageStart v) with
      | some source => exact Iff.rfl
      | none =>
        dsimp only
        rw [copyPage, found]
        constructor
        · intro ran
          rw [bind_ok] at ran
          obtain ⟨_, _, wrong⟩ := ran
          cases wrong
        · intro wrong
          cases wrong
    · exact Iff.rfl
  constructor
  · intro ⟨left, ran⟩
    cases left with
    | zero => cases ran
    | succ left => exact (once left).mp ran
  · intro ran
    exact ⟨1, (once 0).mpr ran⟩

structure Chain (s : Machine) (T : Nat → Tid) (n : Nat) : Prop where
  live : ∀ i ≤ n, s.live (T i) = true
  link : ∀ i < n, (s.proc (T (i + 1))).parentTask = T i

theorem Chain.clone {pml4 : Nat} (chain : Chain s T n) (inv : MemInv s) (ran : sysClone s (T n) false pml4 = .ok after) :
    Chain after (fun i => if i ≤ n then T i else s.tasks) (n + 1) ∧
    (after.proc s.tasks).addrSpace = (s.proc (T n)).addrSpace ∧ (after.proc s.tasks).pml4 = pml4 := by
  have alive : ∀ i ≤ n, T i < s.tasks ∧ (s.proc (T i)).life = .alive := fun i bound => of_decide_eq_true (chain.live i bound)
  have done := sysClone_forked inv (Machine.kept_live (chain.live n (Nat.le_refl n))) ran
  have procs : after.proc = (forked s (T n) pml4).proc := done.ext.proc
  have tasks : after.tasks = s.tasks + 1 := by rw [done.ext.others, forked]
  have child : after.proc s.tasks =
      { pml4 := pml4, parentTask := T n, addrSpace := (s.proc (T n)).addrSpace, life := .alive } := by
    rw [procs, forked]
    exact Function.update_self ..
  have old : ∀ i ≤ n, after.proc (T i) = s.proc (T i) := by
    intro i bound
    rw [procs, forked]
    exact Function.update_of_ne (Nat.ne_of_lt (alive i bound).1) _ _
  refine ⟨⟨?_, ?_⟩, by rw [child], by rw [child]⟩
  · intro i bound
    rw [Machine.live, decide_eq_true_eq, tasks]
    split
    · rename_i inside
      rw [old i inside]
      exact ⟨Nat.lt_succ_of_lt (alive i inside).1, (alive i inside).2⟩
    · rw [child]
      exact ⟨Nat.lt_succ_self _, rfl⟩
  · intro i bound
    rw [if_pos (Nat.le_of_lt_succ bound)]
    split
    · rename_i inside
      rw [old (i + 1) inside]
      exact chain.link i inside
    · rename_i outside
      have last : i = n := by omega
      rw [child, last]

def NearestHas (s : Machine) (T : Nat → Tid) (n v i : Nat) : Prop :=
  i < n ∧ translate s.ram.phys (s.proc (T i)).pml4 v ≠ none ∧
    ∀ j, i < j → j < n → translate s.ram.phys (s.proc (T j)).pml4 v = none

/-- The fault is resolved by finitely many activations, and `T n` then has the bytes of the nearest ancestor that has
    the page. -/
def LazyCopyResolved (s : Machine) (T : Nat → Tid) (n v : Nat) : Prop :=
  ∃ left after, faultWithin s (T n) left (s.proc (T n)).pml4 v = .ok after ∧
    ∃ i q q', NearestHas s T n v i ∧ translate s.ram.phys (s.proc (T i)).pml4 v = some q ∧
      translate after.ram.phys (after.proc (T n)).pml4 v = some q' ∧ ∀ k < pgSize, after.ram.phys q' k = s.ram.phys q k

theorem translate_start (phys : Nat → Buffer) (root v : Nat) : translate phys root (pageStart v) = translate phys root v :=
  translate_congr (pathOf_pageStart v)

theorem copyPage_ok {parent : Tid} {source : Nat} (tree : UserTree s.ram (s.proc t).pml4) (user : v < 2 ^ 47)
    (low : TablesInRam (fun r => r = (s.proc t).pml4) s.ram)
    (spare : Spare s.ram (missingTables s.ram (s.proc t).pml4 v 3 + 1))
    (unmapped : translate s.ram.phys (s.proc t).pml4 v = none)
    (found : translate s.ram.phys (s.proc parent).pml4 v = some source) :
    ∃ after q, copyPage s v t parent = .ok after ∧ after = { s with ram := after.ram } ∧
      translate after.ram.phys (s.proc t).pml4 v = some q ∧ ∀ k < pgSize, after.ram.phys q k = s.ram.phys source k := by
  obtain ⟨mapped, map, taken⟩ := tree.pageMap_returns rfl user low spare
  obtain ⟨q, tables, mapping⟩ := tree.pageMap rfl user unmapped map
  have here : translate mapped.phys (s.proc t).pml4 v = some q := mapping.here.reached
  have marked : mapped.pool.bits q = true := by
    rw [mapping.bits, decide_eq_true (List.mem_cons_self ..), Bool.or_true]
  have inRam : q < memPages := taken q (mapping.fresh q (List.mem_cons_self ..)) marked
  have fills : ∃ filled, fillPage mapped (s.proc t).pml4 v (s.ram.phys source) = .ok filled := by
    rw [fillPage, here]
    exact ⟨_, if_pos inRam⟩
  obtain ⟨filled, fill⟩ := fills
  have filling := fillPage_filling mapping.orderly.unshared user here fill
  refine ⟨{ s with ram := filled }, q, ?_, rfl, ?_, filling.content⟩
  · simp only [copyPage, found, map, fill, bind_ok, Except.ok.injEq, exists_eq_left', pure_ok]
  · exact ((filling.places (pathOf v) q).mpr ⟨rfl, pathOf_user user, here⟩).reached

theorem resolved_parent_has (range : inRg (s.proc t).addrSpace v) (ran : intrPageHandle s t v = .ok after) :
    translate s.ram.phys (s.proc (s.proc t).parentTask).pml4 v ≠ none := by
  intro missing
  rw [intrPageHandle, if_pos range, copyPage, translate_start, missing] at ran
  cases ran

/-- The handler looks one generation up only: where the immediate parent lacks the page, its own copy faults again and
    again. -/
theorem lazy_copy_resolved_iff (s : Machine) (T : Nat → Tid) (n v : Nat) (chain : Chain s T n) (user : v < 2 ^ 47)
    (segment : ∃ i < 4, inRange ((s.proc (T n)).addrSpace.vaddr i) ((s.proc (T n)).addrSpace.filesz i) v)
    (has : translate s.ram.phys (s.proc (T 0)).pml4 v ≠ none)
    (faults : translate s.ram.phys (s.proc (T n)).pml4 v = none) :
    (LazyCopyResolved s T n v → translate s.ram.phys (s.proc (T (n - 1))).pml4 v ≠ none) ∧
    (translate s.ram.phys (s.proc (T (n - 1))).pml4 v ≠ none → UserTree s.ram (s.proc (T n)).pml4 →
      TablesInRam (fun r => r = (s.proc (T n)).pml4) s.ram →
      Spare s.ram (missingTables s.ram (s.proc (T n)).pml4 v 3 + 1) → LazyCopyResolved s T n v) := by
  have positive : n ≠ 0 := by
    intro zero
    rw [zero] at faults
    exact has faults
  have parent : (s.proc (T n)).parentTask = T (n - 1) := by
    have link := chain.link (n - 1) (by omega)
    rw [Nat.sub_add_cancel (by omega)] at link
    exact link
  have range : inRg (s.proc (T n)).addrSpace v := .inl segment
  constructor
  · intro ⟨left, after, ran, _⟩
    have handled := faultWithin_iff.mp ⟨left, ran⟩
    have found := resolved_parent_has range handled
    rw [parent] at found
    exact found
  · intro found tree low spare
    obtain ⟨source, found⟩ := Option.ne_none_iff_exists'.mp found
    have start : pageStart v < 2 ^ 47 := Nat.lt_of_le_of_lt (Nat.sub_le _ _) user
    have missing : missingTables s.ram (s.proc (T n)).pml4 (pageStart v) 3 =
        missingTables s.ram (s.proc (T n)).pml4 v 3 := by
      rw [missingTables, missingTables, pathOf_pageStart]
    rw [← missing] at spare
    obtain ⟨after, q, copied, same, here, content⟩ := @copyPage_ok s (T n) (pageStart v) (T (n - 1)) source tree start low spare
      ((translate_start _ _ _).trans faults) ((translate_start _ _ _).trans found)
    have handled : intrPageHandle s (T n) v = .ok after := by
      rw [intrPageHandle, if_pos range, parent]
      exact copied
    obtain ⟨left, ran⟩ := faultWithin_iff.mpr handled
    refine ⟨left, after, ran, n - 1, source, q, ⟨by omega, ?_, ?_⟩, found, ?_, content⟩
    · rw [found]
      exact Option.some_ne_none source
    · intro j above below
      omega
    · rw [same]
      exact (translate_start _ _ _).symm.trans here

theorem missingTables_le (m : Ram) (root vaddr cnt : Nat) : missingTables m root vaddr cnt ≤ cnt := by
  have bound := List.length_filter_le
    (fun depth => (follow (child m.phys) root ((pathOf vaddr).take (depth + 1))).isNone) (List.range cnt)
  rw [List.length_range] at bound
  exact bound

theorem TreeInv.spare {m : Ram} {roots pending : Nat → Prop} {cnt : Nat} (inv : TreeInv roots pending m)
    (few : cnt ≤ memPages) (room : Room cnt m) : Spare m cnt := by
  refine ⟨List.range' (memPages - cnt) cnt, List.nodup_range', Nat.le_of_eq List.length_range'.symm, ?_⟩
  intro x member
  rw [List.mem_range'_1] at member
  refine ⟨by omega, ?_⟩
  rw [← Bool.not_eq_true]
  intro marked
  have first := inv.packed x (memPages - cnt) member.1 marked
  rw [Room] at room
  rw [room] at first
  cases first

theorem MemInv.copy_room (inv : MemInv s) (kept : s.Kept t) (room : Room 4 s.ram) (v : Nat) :
    TablesInRam (fun r => r = (s.proc t).pml4) s.ram ∧
      Spare s.ram (missingTables s.ram (s.proc t).pml4 v 3 + 1) := by
  constructor
  · intro r path x nonempty _ place
    have isRoot : s.Root r := by
      have same : r = (s.proc t).pml4 := place.isRoot
      rw [same]
      exact kept.isRoot
    exact inv.tree.linked_low (inv.tree.room_less (Nat.zero_le 4) room) ⟨isRoot, place.allowed, place.reached⟩ nonempty
  · apply (inv.tree.spare (by decide) room).less
    have few := missingTables_le s.ram (s.proc t).pml4 v 3
    omega

def touchedChain : List (Tid × MemOp) :=
  bootOps ++ [(1, .clone false 0x110), (2, .fault 0x400100), (2, .clone false 0x111)]

def untouchedChain : List (Tid × MemOp) := bootOps ++ [(1, .clone false 0x110), (2, .clone false 0x111)]

/-- Tasks 1, 2 and 3 are a chain, and the segment of the program is one of task 3. -/
def ThreeForked (s : Machine) : Prop :=
  (s.live 1 = true ∧ s.live 2 = true ∧ s.live 3 = true) ∧ (s.proc 3).parentTask = 2 ∧ (s.proc 2).parentTask = 1 ∧
    inRange ((s.proc 3).addrSpace.vaddr 0) ((s.proc 3).addrSpace.filesz 0) 0x400100 ∧
    translate s.ram.phys (s.proc 1).pml4 0x400100 ≠ none ∧ translate s.ram.phys (s.proc 3).pml4 0x400100 = none

instance (s : Machine) : Decidable (ThreeForked s) := by
  unfold ThreeForked
  infer_instance

theorem ThreeForked.chain (forked : ThreeForked s) : Chain s (fun i => i + 1) 2 := by
  obtain ⟨⟨one, two, three⟩, link3, link2, _⟩ := forked
  constructor
  · intro i bound
    match i, bound with
    | 0, _ => exact one
    | 1, _ => exact two
    | 2, _ => exact three
  · intro i bound
    match i, bound with
    | 0, _ => exact link2
    | 1, _ => exact link3

theorem lazy_copy_resolved_touched : ∃ s, run Machine.step (Machine.start fun _ _ => 0) touchedChain = .ok s ∧
    Chain s (fun i => i + 1) 2 ∧ LazyCopyResolved s (fun i => i + 1) 2 0x400100 := by
  have evaluated : endsIn (run Machine.step (Machine.start fun _ _ => 0) touchedChain) (fun s =>
      decide (ThreeForked s ∧ translate s.ram.phys (s.proc 2).pml4 0x400100 ≠ none ∧ Room 4 s.ram)) = true := by
    decide +kernel
  have fresh : Meets Machine.step MapsFresh (Machine.start fun _ _ => 0) touchedChain := by
    apply bootOps_fresh.append
    intro middle _
    apply meets_always
    intro op member s
    simp only [List.mem_cons, List.not_mem_nil, or_false] at member
    rcases member with rfl | rfl | rfl
    · exact True.intro
    · exact True.intro
    · exact True.intro
  obtain ⟨s, ran, check⟩ := exists_of_endsIn evaluated
  obtain ⟨forked, found, room⟩ := of_decide_eq_true check
  have inv := run_invariant memInv_step (memInv_start ⟨fun _ _ _ _ => rfl, fun _ _ => rfl⟩) fresh ran
  have kept : s.Kept 3 := Machine.kept_live forked.1.2.2
  have tree := inv.userTree kept
  obtain ⟨low, spare⟩ := inv.copy_room kept room 0x400100
  have chain := forked.chain
  obtain ⟨_, _, _, segment, has, faults⟩ := forked
  have resolved := lazy_copy_resolved_iff s (fun i => i + 1) 2 0x400100 chain (by decide) ⟨0, by decide, segment⟩ has faults
  exact ⟨s, ran, chain, resolved.2 found tree low spare⟩

/-- Task 2 has not touched the page that task 1 has, and no number of activations resolves the fault of task 3. -/
theorem lazy_copy_never_returns : ∃ s, run Machine.step (Machine.start fun _ _ => 0) untouchedChain = .ok s ∧
    Chain s (fun i => i + 1) 2 ∧ translate s.ram.phys (s.proc 1).pml4 0x400100 ≠ none ∧
    (∀ left after, faultWithin s 3 left (s.proc 3).pml4 0x400100 ≠ .ok after) ∧
    ¬ LazyCopyResolved s (fun i => i + 1) 2 0x400100 := by
  have evaluated : endsIn (run Machine.step (Machine.start fun _ _ => 0) untouchedChain) (fun s =>
      decide (ThreeForked s ∧ translate s.ram.phys (s.proc 2).pml4 0x400100 = none)) = true := by
    decide +kernel
  obtain ⟨s, ran, check⟩ := exists_of_endsIn evaluated
  obtain ⟨forked, missing⟩ := of_decide_eq_true check
  have chain := forked.chain
  obtain ⟨_, parent, _, segment, has, faults⟩ := forked
  have never : ∀ left after, faultWithin s 3 left (s.proc 3).pml4 0x400100 ≠ .ok after := by
    intro left after ran
    apply resolved_parent_has (.inl ⟨0, by decide, segment⟩) (faultWithin_iff.mp ⟨left, ran⟩)
    rw [parent]
    exact missing
  exact ⟨s, ran, chain, has, never, fun ⟨left, after, handled, _⟩ => never left after handled⟩

end RecoverOs.Memory
