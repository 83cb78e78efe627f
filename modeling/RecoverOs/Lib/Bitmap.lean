import Mathlib.Algebra.Group.Int.Defs
import Mathlib.Algebra.Group.Nat.Defs
import Mathlib.Logic.Function.Basic
import Mathlib.Order.Bounds.Defs

namespace RecoverOs.Lib

/-- `bits` is the memory from `btmp->bits` on: indices from `8 * bytesLen` are the bits behind the array. -/
structure Bitmap where
  bytesLen : Nat
  bits : Nat → Bool

def bitmapInit (btmp : Bitmap) : Bitmap :=
  { btmp with bits := fun idx => if idx < 8 * btmp.bytesLen then false else btmp.bits idx }

def bitmapRead (btmp : Bitmap) (idx : Nat) : Bool := btmp.bits idx

def bitmapSet (btmp : Bitmap) (idx : Nat) (value : Bool) : Bitmap :=
  { btmp with bits := Function.update btmp.bits idx value }

/-- The inner loop of `bitmap_alloc` from `j` on: `left` is `cnt - j` modulo `2^64`. -/
def clearRun (btmp : Bitmap) (i : Nat) : Nat → Nat → Nat
  | j, 0 => j
  | j, left + 1 => if bitmapRead btmp (i + j) then j else clearRun btmp i (j + 1) left

def setRun (btmp : Bitmap) (i : Nat) : Nat → Bitmap
  | 0 => btmp
  | k + 1 => bitmapSet (setRun btmp i k) (i + k) true

/-- The outer loop of `bitmap_alloc` from `i` on; it skips the whole run it has rejected and one bit more. -/
def bitmapScan (btmp : Bitmap) (cnt : Nat) : Nat → Nat → Option Nat
  | _, 0 => none
  | i, fuel + 1 =>
    if i < 8 * btmp.bytesLen then
      if bitmapRead btmp i then bitmapScan btmp cnt (i + 1) fuel
      else
        let j := clearRun btmp i 1 ((cnt + 2 ^ 64 - 1) % 2 ^ 64)
        if j = cnt then some i else bitmapScan btmp cnt (i + j + 1) fuel
    else none

def bitmapAlloc (btmp : Bitmap) (cnt : Nat) : Option (Nat × Bitmap) :=
  match bitmapScan btmp cnt 0 (8 * btmp.bytesLen) with
  | some i => some (i, setRun btmp i cnt)
  | none => none

theorem bitmapScan_one (btmp : Bitmap) (i fuel : Nat) (enough : 8 * btmp.bytesLen ≤ i + fuel) :
    match bitmapScan btmp 1 i fuel with
    | some k => i ≤ k ∧ k < 8 * btmp.bytesLen ∧ btmp.bits k = false ∧ ∀ m, i ≤ m → m < k → btmp.bits m = true
    | none => ∀ m, i ≤ m → m < 8 * btmp.bytesLen → btmp.bits m = true := by
  induction fuel generalizing i with
  | zero =>
    intro m low high
    omega
  | succ fuel ih =>
    unfold bitmapScan
    by_cases bound : i < 8 * btmp.bytesLen
    · by_cases marked : btmp.bits i = true
      · simp only [bound, bitmapRead, marked, if_true]
        have rest := ih (i + 1) (by omega)
        split at rest
        · refine ⟨by omega, rest.2.1, rest.2.2.1, ?_⟩
          intro m low high
          by_cases same : m = i
          · rw [same]; exact marked
          · exact rest.2.2.2 m (by omega) high
        · intro m low high
          by_cases same : m = i
          · rw [same]; exact marked
          · exact rest m (by omega) high
      · simp only [Bool.not_eq_true] at marked
        simp only [bound, bitmapRead, marked, if_true, Nat.reducePow, Nat.reduceAdd, Nat.reduceSub,
          Nat.reduceMod, clearRun]
        exact ⟨Nat.le_refl i, bound, marked, fun m low high => by omega⟩
    · simp only [bound, if_false]
      intro m low high
      omega

theorem bitmapAlloc_one_some {btmp after : Bitmap} {i : Nat} (found : bitmapAlloc btmp 1 = some (i, after)) :
    i < 8 * btmp.bytesLen ∧ btmp.bits i = false ∧ (∀ m, m < i → btmp.bits m = true) ∧
      after = bitmapSet btmp i true := by
  have scan := bitmapScan_one btmp 0 (8 * btmp.bytesLen) (by omega)
  unfold bitmapAlloc at found
  split at found
  · rename_i k hit
    rw [hit] at scan
    cases found
    exact ⟨scan.2.1, scan.2.2.1, fun m high => scan.2.2.2 m (Nat.zero_le m) high, rfl⟩
  · cases found

theorem bitmapAlloc_one_none {btmp : Bitmap} (full : bitmapAlloc btmp 1 = none) :
    ∀ m, m < 8 * btmp.bytesLen → btmp.bits m = true := by
  have scan := bitmapScan_one btmp 0 (8 * btmp.bytesLen) (by omega)
  unfold bitmapAlloc at full
  split at full
  · cases full
  · rename_i miss
    rw [miss] at scan
    exact fun m high => scan m (Nat.zero_le m) high

@[simp] theorem bitmapSet_bytesLen (btmp : Bitmap) (idx : Nat) (value : Bool) :
    (bitmapSet btmp idx value).bytesLen = btmp.bytesLen := rfl

theorem bitmapSet_bits (btmp : Bitmap) (idx k : Nat) (value : Bool) :
    (bitmapSet btmp idx value).bits k = if k = idx then value else btmp.bits k := by
  simp [bitmapSet, Function.update_apply]

@[simp] theorem setRun_bytesLen (btmp : Bitmap) (i cnt : Nat) : (setRun btmp i cnt).bytesLen = btmp.bytesLen := by
  induction cnt with
  | zero => rfl
  | succ cnt ih => rw [setRun, bitmapSet_bytesLen, ih]

theorem setRun_bits (btmp : Bitmap) (i cnt k : Nat) :
    (setRun btmp i cnt).bits k = if i ≤ k ∧ k < i + cnt then true else btmp.bits k := by
  induction cnt with
  | zero =>
    rw [setRun, if_neg]
    omega
  | succ cnt ih =>
    rw [setRun, bitmapSet_bits, ih]
    by_cases last : k = i + cnt
    · rw [if_pos last, if_pos]
      omega
    · rw [if_neg last]
      by_cases inside : i ≤ k ∧ k < i + cnt
      · rw [if_pos inside, if_pos]
        omega
      · rw [if_neg inside, if_neg]
        omega

theorem clearRun_spec (btmp : Bitmap) (i j left : Nat) :
    j ≤ clearRun btmp i j left ∧ clearRun btmp i j left ≤ j + left ∧
      (∀ k, j ≤ k → k < clearRun btmp i j left → btmp.bits (i + k) = false) ∧
      (clearRun btmp i j left < j + left → btmp.bits (i + clearRun btmp i j left) = true) := by
  induction left generalizing j with
  | zero =>
    rw [clearRun]
    refine ⟨Nat.le_refl j, Nat.le_refl j, ?_, ?_⟩
    · intro k low high
      omega
    · intro less
      omega
  | succ left ih =>
    rw [clearRun]
    by_cases marked : btmp.bits (i + j) = true
    · rw [bitmapRead, if_pos marked]
      refine ⟨Nat.le_refl j, by omega, ?_, fun _ => marked⟩
      intro k low high
      omega
    · rw [bitmapRead, if_neg marked]
      obtain ⟨low, high, clear, stop⟩ := ih (j + 1)
      refine ⟨by omega, by omega, ?_, ?_⟩
      · intro k first last
        by_cases here : k = j
        · rw [here]
          exact Bool.eq_false_iff.mpr marked
        · exact clear k (by omega) last
      · intro less
        exact stop (by omega)

def Blocked (btmp : Bitmap) (cnt start : Nat) : Prop := ∃ k < cnt, btmp.bits (start + k) = true

theorem bitmapScan_succ {cnt : Nat} (btmp : Bitmap) (one : 1 ≤ cnt) (small : cnt < 2 ^ 64) (i fuel : Nat) :
    bitmapScan btmp cnt i (fuel + 1) =
      if i < 8 * btmp.bytesLen then
        if btmp.bits i = true then bitmapScan btmp cnt (i + 1) fuel
        else if clearRun btmp i 1 (cnt - 1) = cnt then some i
        else bitmapScan btmp cnt (i + clearRun btmp i 1 (cnt - 1) + 1) fuel
      else none := by
  have left : (cnt + 2 ^ 64 - 1) % 2 ^ 64 = cnt - 1 := by omega
  rw [bitmapScan, left]
  rfl

theorem clearRun_scan {btmp : Bitmap} {cnt i : Nat} (one : 1 ≤ cnt) (clear : btmp.bits i = false) :
    1 ≤ clearRun btmp i 1 (cnt - 1) ∧ clearRun btmp i 1 (cnt - 1) ≤ cnt ∧
      (∀ k < clearRun btmp i 1 (cnt - 1), btmp.bits (i + k) = false) ∧
      (clearRun btmp i 1 (cnt - 1) ≠ cnt → btmp.bits (i + clearRun btmp i 1 (cnt - 1)) = true) := by
  obtain ⟨low, high, run, stop⟩ := clearRun_spec btmp i 1 (cnt - 1)
  refine ⟨low, by omega, ?_, ?_⟩
  · intro k less
    by_cases first : k = 0
    · rw [first]
      exact clear
    · exact run k (by omega) less
  · intro short
    exact stop (by omega)

theorem bitmapScan_spec {cnt : Nat} (btmp : Bitmap) (one : 1 ≤ cnt) (small : cnt < 2 ^ 64) (i fuel : Nat)
    (enough : 8 * btmp.bytesLen ≤ i + fuel) :
    match bitmapScan btmp cnt i fuel with
    | some k => i ≤ k ∧ k < 8 * btmp.bytesLen ∧ (∀ m < cnt, btmp.bits (k + m) = false) ∧
        ∀ start, i ≤ start → start < k → Blocked btmp cnt start
    | none => ∀ start, i ≤ start → start < 8 * btmp.bytesLen → Blocked btmp cnt start := by
  induction fuel using Nat.strongRecOn generalizing i with
  | _ fuel ih =>
    cases fuel with
    | zero =>
      intro start low high
      omega
    | succ fuel =>
      rw [bitmapScan_succ btmp one small]
      by_cases bound : i < 8 * btmp.bytesLen
      · rw [if_pos bound]
        by_cases marked : btmp.bits i = true
        · rw [if_pos marked]
          have here : Blocked btmp cnt i := ⟨0, one, marked⟩
          have rest := ih fuel (Nat.lt_succ_self fuel) (i + 1) (by omega)
          split at rest
          · refine ⟨by omega, rest.2.1, rest.2.2.1, ?_⟩
            intro start low high
            by_cases same : start = i
            · rw [same]
              exact here
            · exact rest.2.2.2 start (by omega) high
          · intro start low high
            by_cases same : start = i
            · rw [same]
              exact here
            · exact rest start (by omega) high
        · have clear : btmp.bits i = false := Bool.eq_false_iff.mpr marked
          obtain ⟨low, high, run, stop⟩ := clearRun_scan one clear
          rw [if_neg marked]
          generalize clearRun btmp i 1 (cnt - 1) = j at low high run stop ⊢
          by_cases found : j = cnt
          · rw [if_pos found]
            refine ⟨Nat.le_refl i, bound, ?_, ?_⟩
            · intro m less
              exact run m (by omega)
            · intro start first last
              omega
          · rw [if_neg found]
            -- The bit that ends the run is in every run of `cnt` bits that starts up to it.
            have rejected : ∀ start, i ≤ start → start < i + j + 1 → Blocked btmp cnt start := by
              intro start first last
              refine ⟨i + j - start, by omega, ?_⟩
              have same : start + (i + j - start) = i + j := by omega
              rw [same]
              exact stop found
            have rest := ih fuel (Nat.lt_succ_self fuel) (i + j + 1) (by omega)
            split at rest
            · refine ⟨by omega, rest.2.1, rest.2.2.1, ?_⟩
              intro start first last
              by_cases early : start < i + j + 1
              · exact rejected start first early
              · exact rest.2.2.2 start (by omega) last
            · intro start first last
              by_cases early : start < i + j + 1
              · exact rejected start first early
              · exact rest start (by omega) last
      · rw [if_neg bound]
        intro start low high
        omega

theorem bitmapAlloc_some {btmp after : Bitmap} {cnt idx : Nat} (one : 1 ≤ cnt) (small : cnt < 2 ^ 64)
    (found : bitmapAlloc btmp cnt = some (idx, after)) :
    idx < 8 * btmp.bytesLen ∧ (∀ m < cnt, btmp.bits (idx + m) = false) ∧
      (∀ start < idx, Blocked btmp cnt start) ∧ after = setRun btmp idx cnt := by
  have scan := bitmapScan_spec btmp one small 0 (8 * btmp.bytesLen) (by omega)
  unfold bitmapAlloc at found
  split at found
  · rename_i k hit
    rw [hit] at scan
    cases found
    exact ⟨scan.2.1, scan.2.2.1, fun start less => scan.2.2.2 start (Nat.zero_le start) less, rfl⟩
  · cases found

theorem bitmapAlloc_none {btmp : Bitmap} {cnt : Nat} (one : 1 ≤ cnt) (small : cnt < 2 ^ 64)
    (full : bitmapAlloc btmp cnt = none) : ∀ start < 8 * btmp.bytesLen, Blocked btmp cnt start := by
  have scan := bitmapScan_spec btmp one small 0 (8 * btmp.bytesLen) (by omega)
  unfold bitmapAlloc at full
  split at full
  · cases full
  · rename_i miss
    rw [miss] at scan
    exact fun start less => scan start (Nat.zero_le start) less

/-- The index `start` is in the array and `cnt` clear bits start there, some of them maybe behind the array. -/
def ClearAt (btmp : Bitmap) (cnt start : Nat) : Prop :=
  start < 8 * btmp.bytesLen ∧ ∀ m < cnt, btmp.bits (start + m) = false

theorem ClearAt.not_blocked {btmp : Bitmap} {cnt start : Nat} (clear : ClearAt btmp cnt start) :
    ¬ Blocked btmp cnt start := by
  intro blocked
  obtain ⟨m, less, set⟩ := blocked
  rw [clear.2 m less] at set
  cases set

theorem bitmapAlloc_isLeast {btmp after : Bitmap} {cnt idx : Nat} (one : 1 ≤ cnt) (small : cnt < 2 ^ 64)
    (found : bitmapAlloc btmp cnt = some (idx, after)) : IsLeast {start | ClearAt btmp cnt start} idx := by
  obtain ⟨bound, clear, earliest, -⟩ := bitmapAlloc_some one small found
  have least : ∀ start, ClearAt btmp cnt start → idx ≤ start := by
    intro start clearThere
    by_contra before
    exact clearThere.not_blocked (earliest start (by omega))
  exact ⟨⟨bound, clear⟩, least⟩

theorem bitmap_alloc_first_fit (btmp : Bitmap) (cnt : Nat) (one : 1 ≤ cnt) (small : cnt < 2 ^ 64) :
    ((∃ start, ClearAt btmp cnt start) → ∃ i after, bitmapAlloc btmp cnt = some (i, after) ∧
      IsLeast {start | ClearAt btmp cnt start} i ∧ after.bytesLen = btmp.bytesLen ∧
      ∀ k, after.bits k = if i ≤ k ∧ k < i + cnt then true else btmp.bits k) ∧
    ((¬ ∃ start, ClearAt btmp cnt start) → bitmapAlloc btmp cnt = none) := by
  cases run : bitmapAlloc btmp cnt with
  | none =>
    have blocked := bitmapAlloc_none one small run
    constructor
    · intro exists_clear
      obtain ⟨start, clear⟩ := exists_clear
      exact absurd (blocked start clear.1) clear.not_blocked
    · intro _
      rfl
  | some found =>
    obtain ⟨i, after⟩ := found
    have least := bitmapAlloc_isLeast one small run
    have set := (bitmapAlloc_some one small run).2.2.2
    constructor
    · intro _
      refine ⟨i, after, rfl, least, ?_, ?_⟩
      · rw [set, setRun_bytesLen]
      · intro k
        rw [set, setRun_bits]
    · intro none_clear
      exact absurd ⟨i, least.1⟩ none_clear

/-- The runs at 1 and 3 are too short; the first run of three is at 6 and ends behind the one byte of the array. -/
theorem bitmap_alloc_first_fit_closed :
    ((∃ start, ClearAt ⟨1, fun k => k = 0 || k = 2 || k = 5⟩ 3 start) →
      ∃ i after, bitmapAlloc ⟨1, fun k => k = 0 || k = 2 || k = 5⟩ 3 = some (i, after) ∧
        IsLeast {start | ClearAt ⟨1, fun k => k = 0 || k = 2 || k = 5⟩ 3 start} i ∧ after.bytesLen = 1 ∧
        ∀ k, after.bits k = if i ≤ k ∧ k < i + 3 then true else (k = 0 || k = 2 || k = 5)) ∧
    ((¬ ∃ start, ClearAt ⟨1, fun k => k = 0 || k = 2 || k = 5⟩ 3 start) →
      bitmapAlloc ⟨1, fun k => k = 0 || k = 2 || k = 5⟩ 3 = none) :=
  bitmap_alloc_first_fit ⟨1, fun k => k = 0 || k = 2 || k = 5⟩ 3 (by decide) (by decide)

theorem bitmapScan_zero (btmp : Bitmap) (i fuel : Nat) : bitmapScan btmp 0 i fuel = none := by
  induction fuel generalizing i with
  | zero => rfl
  | succ fuel ih =>
    have long := (clearRun_spec btmp i 1 ((0 + 2 ^ 64 - 1) % 2 ^ 64)).1
    have never : ¬ clearRun btmp i 1 ((0 + 2 ^ 64 - 1) % 2 ^ 64) = 0 := by omega
    simp only [bitmapScan, ih, if_neg never, ite_self]

theorem bitmapAlloc_zero (btmp : Bitmap) : bitmapAlloc btmp 0 = none := by
  rw [bitmapAlloc, bitmapScan_zero]

def clearRunReads (btmp : Bitmap) (i : Nat) : Nat → Nat → List Nat
  | _, 0 => []
  | j, left + 1 => (i + j) :: (if bitmapRead btmp (i + j) then [] else clearRunReads btmp i (j + 1) left)

def bitmapScanReads (btmp : Bitmap) (cnt : Nat) : Nat → Nat → List Nat
  | _, 0 => []
  | i, fuel + 1 =>
    if i < 8 * btmp.bytesLen then
      i :: (if bitmapRead btmp i then bitmapScanReads btmp cnt (i + 1) fuel
        else
          let j := clearRun btmp i 1 ((cnt + 2 ^ 64 - 1) % 2 ^ 64)
          clearRunReads btmp i 1 ((cnt + 2 ^ 64 - 1) % 2 ^ 64) ++
            if j = cnt then [] else bitmapScanReads btmp cnt (i + j + 1) fuel)
    else []

def bitmapAllocTouches (btmp : Bitmap) (cnt : Nat) : List Nat :=
  bitmapScanReads btmp cnt 0 (8 * btmp.bytesLen) ++
    match bitmapScan btmp cnt 0 (8 * btmp.bytesLen) with
    | some i => (List.range cnt).map (i + ·)
    | none => []

theorem mem_clearRunReads (btmp : Bitmap) (i j left k : Nat) :
    k ∈ clearRunReads btmp i j left ↔ i + j ≤ k ∧ k < i + j + left ∧ k ≤ i + clearRun btmp i j left := by
  induction left generalizing j with
  | zero =>
    rw [clearRunReads]
    simp only [List.not_mem_nil, false_iff]
    omega
  | succ left ih =>
    rw [clearRunReads, clearRun, List.mem_cons]
    by_cases marked : bitmapRead btmp (i + j) = true
    · rw [if_pos marked, if_pos marked]
      simp only [List.not_mem_nil, or_false]
      omega
    · rw [if_neg marked, if_neg marked, ih]
      have low := (clearRun_spec btmp i (j + 1) left).1
      omega

theorem bitmapScanReads_succ {cnt : Nat} (btmp : Bitmap) (one : 1 ≤ cnt) (small : cnt < 2 ^ 64) (i fuel : Nat) :
    bitmapScanReads btmp cnt i (fuel + 1) =
      if i < 8 * btmp.bytesLen then
        i :: (if btmp.bits i = true then bitmapScanReads btmp cnt (i + 1) fuel
          else clearRunReads btmp i 1 (cnt - 1) ++
            if clearRun btmp i 1 (cnt - 1) = cnt then []
            else bitmapScanReads btmp cnt (i + clearRun btmp i 1 (cnt - 1) + 1) fuel)
      else [] := by
  have left : (cnt + 2 ^ 64 - 1) % 2 ^ 64 = cnt - 1 := by omega
  rw [bitmapScanReads, left]
  rfl

/-- `cnt` clear bits in a row lie inside the array. -/
def FreeRun (btmp : Bitmap) (cnt : Nat) : Prop :=
  ∃ start, start + cnt ≤ 8 * btmp.bytesLen ∧ ∀ k < cnt, btmp.bits (start + k) = false

/-- The scan does not run into clear bits at the end of the array that are too few. -/
def StopsInside (btmp : Bitmap) (cnt : Nat) : Prop :=
  cnt = 1 ∨ FreeRun btmp cnt ∨ btmp.bits (8 * btmp.bytesLen - 1) = true

theorem bitmapScanReads_inside {btmp : Bitmap} {cnt : Nat} (one : 1 ≤ cnt) (small : cnt < 2 ^ 64)
    (stops : StopsInside btmp cnt) (i fuel : Nat) (rejected : ∀ start < i, Blocked btmp cnt start) :
    ∀ k ∈ bitmapScanReads btmp cnt i fuel, k < 8 * btmp.bytesLen := by
  induction fuel generalizing i with
  | zero =>
    intro k member
    cases member
  | succ fuel ih =>
    intro k member
    rw [bitmapScanReads_succ btmp one small] at member
    by_cases bound : i < 8 * btmp.bytesLen
    · rw [if_pos bound, List.mem_cons] at member
      rcases member with here | member
      · omega
      · by_cases marked : btmp.bits i = true
        · rw [if_pos marked] at member
          apply ih (i + 1) _ k member
          intro start less
          by_cases same : start = i
          · rw [same]
            exact ⟨0, one, marked⟩
          · exact rejected start (by omega)
        · have clear : btmp.bits i = false := Bool.eq_false_iff.mpr marked
          obtain ⟨low, high, run, stop⟩ := clearRun_scan one clear
          rw [if_neg marked, List.mem_append, mem_clearRunReads] at member
          generalize clearRun btmp i 1 (cnt - 1) = j at low high run stop member
          -- A run that leaves the array is too short and leaves no room for a free one.
          have inside : 1 < cnt → (if j = cnt then i + cnt else i + j + 1) ≤ 8 * btmp.bytesLen := by
            intro several
            by_contra beyond
            have far : 8 * btmp.bytesLen ≤ i + j := by
              split at beyond
              · omega
              · omega
            rcases stops with single | ⟨start, fits, free⟩ | last
            · omega
            · have ahead : i ≤ start := by
                by_contra behind
                obtain ⟨m, less, set⟩ := rejected start (by omega)
                rw [free m less] at set
                cases set
              split at beyond
              · omega
              · omega
            · have covered := run (8 * btmp.bytesLen - 1 - i) (by omega)
              have same : i + (8 * btmp.bytesLen - 1 - i) = 8 * btmp.bytesLen - 1 := by omega
              rw [same, last] at covered
              cases covered
          rcases member with ⟨first, last, upTo⟩ | later
          · have bounded := inside (by omega)
            split at bounded
            · omega
            · omega
          · split at later
            · cases later
            · rename_i short
              apply ih (i + j + 1) _ k later
              intro start less
              by_cases early : start < i
              · exact rejected start early
              · refine ⟨i + j - start, by omega, ?_⟩
                have same : start + (i + j - start) = i + j := by omega
                rw [same]
                exact stop short
    · rw [if_neg bound] at member
      cases member

theorem bitmapScanReads_beyond {btmp : Bitmap} {cnt : Nat} (several : 1 < cnt) (small : cnt < 2 ^ 64)
    (full : ¬ FreeRun btmp cnt) (last : btmp.bits (8 * btmp.bytesLen - 1) = false) (i fuel : Nat)
    (bound : i < 8 * btmp.bytesLen) (enough : 8 * btmp.bytesLen ≤ i + fuel) :
    ∃ k ∈ bitmapScanReads btmp cnt i fuel, 8 * btmp.bytesLen ≤ k := by
  induction fuel generalizing i with
  | zero => omega
  | succ fuel ih =>
    have one : 1 ≤ cnt := by omega
    rw [bitmapScanReads_succ btmp one small, if_pos bound]
    by_cases marked : btmp.bits i = true
    · have notLast : i ≠ 8 * btmp.bytesLen - 1 := by
        intro same
        rw [same, last] at marked
        cases marked
      obtain ⟨k, member, high⟩ := ih (i + 1) (by omega) (by omega)
      refine ⟨k, List.mem_cons_of_mem _ ?_, high⟩
      rw [if_pos marked]
      exact member
    · have clear : btmp.bits i = false := Bool.eq_false_iff.mpr marked
      obtain ⟨low, high, run, stop⟩ := clearRun_scan one clear
      rw [if_neg marked]
      by_cases far : 8 * btmp.bytesLen ≤ i + clearRun btmp i 1 (cnt - 1) ∧ 8 * btmp.bytesLen < i + cnt
      · refine ⟨8 * btmp.bytesLen, ?_, Nat.le_refl _⟩
        apply List.mem_cons_of_mem
        apply List.mem_append_left
        rw [mem_clearRunReads]
        omega
      · by_cases found : clearRun btmp i 1 (cnt - 1) = cnt
        · rw [found] at far run
          refine absurd ⟨i, ?_, run⟩ full
          omega
        · have set := stop found
          have notLast : i + clearRun btmp i 1 (cnt - 1) ≠ 8 * btmp.bytesLen - 1 := by
            intro same
            rw [same, last] at set
            cases set
          obtain ⟨k, member, beyond⟩ := ih (i + clearRun btmp i 1 (cnt - 1) + 1) (by omega) (by omega)
          refine ⟨k, ?_, beyond⟩
          apply List.mem_cons_of_mem
          apply List.mem_append_right
          rw [if_neg found]
          exact member

theorem StopsInside.run_inside {btmp : Bitmap} {cnt first : Nat} (stops : StopsInside btmp cnt)
    (bound : first < 8 * btmp.bytesLen) (clear : ∀ m < cnt, btmp.bits (first + m) = false)
    (earliest : ∀ start < first, Blocked btmp cnt start) : first + cnt ≤ 8 * btmp.bytesLen := by
  rcases stops with single | ⟨start, fits, free⟩ | last
  · omega
  · have ahead : first ≤ start := by
      by_contra behind
      obtain ⟨n, below, set⟩ := earliest start (by omega)
      rw [free n below] at set
      cases set
    omega
  · by_contra beyond
    have covered := clear (8 * btmp.bytesLen - 1 - first) (by omega)
    have same : first + (8 * btmp.bytesLen - 1 - first) = 8 * btmp.bytesLen - 1 := by omega
    rw [same, last] at covered
    cases covered

theorem bitmapAllocTouches_inside {btmp : Bitmap} {cnt : Nat} (one : 1 ≤ cnt) (small : cnt < 2 ^ 64)
    (nonempty : 0 < btmp.bytesLen) :
    (∀ k ∈ bitmapAllocTouches btmp cnt, k < 8 * btmp.bytesLen) ↔ StopsInside btmp cnt := by
  constructor
  · intro inside
    by_contra runs
    rw [StopsInside, not_or, not_or, Bool.not_eq_true] at runs
    obtain ⟨several, full, last⟩ := runs
    obtain ⟨k, member, beyond⟩ := bitmapScanReads_beyond (by omega) small full last 0 (8 * btmp.bytesLen) (by omega)
      (by omega)
    have bounded := inside k (List.mem_append_left _ member)
    omega
  · intro stops k member
    rcases List.mem_append.mp member with read | written
    · exact bitmapScanReads_inside one small stops 0 _ (fun start less => absurd less (Nat.not_lt_zero start)) k read
    · have scan := bitmapScan_spec btmp one small 0 (8 * btmp.bytesLen) (by omega)
      split at written
      · rename_i first found
        rw [found] at scan
        obtain ⟨m, less, rfl⟩ := List.mem_map.mp written
        have short := List.mem_range.mp less
        have inside := stops.run_inside scan.2.1 scan.2.2.1 fun start below => scan.2.2.2 start (Nat.zero_le start) below
        omega
      · cases written

end RecoverOs.Lib
