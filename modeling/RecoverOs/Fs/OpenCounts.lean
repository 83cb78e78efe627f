import RecoverOs.Fs.OpenInodes
import Mathlib.Algebra.Order.Ring.Int

namespace RecoverOs.Fs

open Transition

structure Healthy (s : State) : Prop where
  cache : CacheInv s
  counted : Counted s

def opens (s : State) (q : Ptr) : Int :=
  if q ∈ s.openInodes then (s.inode q).openCnts else 0

def single (p q : Ptr) : Int := if q = p then 1 else 0

structure Adds (s after : State) (more : Ptr → Int) : Prop where
  healthy : Healthy after
  opens : ∀ q, opens after q = opens s q + more q

variable {s after : State} {p : Ptr}

theorem opens_pos (healthy : Healthy s) {q : Ptr} : q ∈ s.openInodes ↔ 0 < opens s q := by
  unfold opens
  split
  · rename_i member
    exact ⟨fun _ => healthy.counted q member, fun _ => member⟩
  · rename_i absent
    exact ⟨fun member => absurd member absent, fun positive => absurd positive (lt_irrefl 0)⟩

theorem opens_nonneg (healthy : Healthy s) (q : Ptr) : 0 ≤ opens s q := by
  by_cases member : q ∈ s.openInodes
  · exact le_of_lt ((opens_pos healthy).mp member)
  · rw [opens, if_neg member]

theorem Adds.trans {middle : State} {first second : Ptr → Int} (left : Adds s middle first)
    (right : Adds middle after second) : Adds s after fun q => first q + second q where
  healthy := right.healthy
  opens := by
    intro q
    rw [right.opens, left.opens]
    omega

theorem Adds.congr {more other : Ptr → Int} (adds : Adds s after more) (same : ∀ q, more q = other q) :
    Adds s after other where
  healthy := adds.healthy
  opens := by
    intro q
    rw [adds.opens, same]

theorem SameCache.adds (same : SameCache s after) (healthy : Healthy s) : Adds s after fun _ => 0 where
  healthy := by
    refine ⟨healthy.cache.same same, ?_⟩
    intro q member
    rw [same.openInodes] at member
    rw [same.openCnts]
    exact healthy.counted q member
  opens := by
    intro q
    simp only [Fs.opens, same.openInodes, same.openCnts, add_zero]

theorem Opened.adds {iNo : Nat} (opened : Opened s iNo p after) (healthy : Healthy s) :
    Adds s after (single p) := by
  have count : ∀ q, Fs.opens after q = Fs.opens s q + single p q := by
    intro q
    by_cases before : q ∈ s.openInodes
    · rw [Fs.opens, Fs.opens, if_pos before, if_pos (opened.grows before), (opened.old q before).2.2, single]
    · by_cases member : q ∈ after.openInodes
      · obtain ⟨here, one, _⟩ := opened.new q member before
        rw [Fs.opens, Fs.opens, if_neg before, if_pos member, one, single, if_pos here, zero_add]
      · have other : q ≠ p := fun here => member (here ▸ opened.isOpen.mem)
        rw [Fs.opens, Fs.opens, if_neg before, if_neg member, single, if_neg other, zero_add]
  refine ⟨⟨opened.inv, ?_⟩, count⟩
  intro q member
  by_cases before : q ∈ s.openInodes
  · rw [(opened.old q before).2.2]
    have positive := healthy.counted q before
    split <;> omega
  · rw [(opened.new q member before).2.1]
    exact one_pos

theorem Closed.adds (closed : Closed s p after) (healthy : Healthy s) (open' : p ∈ s.openInodes) :
    Adds s after fun q => -single p q := by
  have count : ∀ q ∈ after.openInodes, (after.inode q).openCnts = Fs.opens s q - single p q ∧
      0 < (after.inode q).openCnts := by
    intro q member
    obtain ⟨before, more⟩ := (closed.shrinks q).mp member
    have positive := healthy.counted q before
    rw [closed.openCnts, Fs.opens, if_pos before, single]
    by_cases here : q = p
    · subst here
      have several := more rfl
      rw [if_pos rfl]
      omega
    · rw [if_neg here]
      omega
  refine ⟨⟨closed.inv, fun q member => (count q member).2⟩, ?_⟩
  intro q
  by_cases member : q ∈ after.openInodes
  · rw [Fs.opens, if_pos member, (count q member).1]
    omega
  · rw [Fs.opens, if_neg member, single]
    by_cases before : q ∈ s.openInodes
    · have here : q = p := by
        by_contra other
        exact member ((closed.shrinks q).mpr ⟨before, fun same => absurd same other⟩)
      have last : (s.inode p).openCnts = 1 := by
        by_contra other
        exact member ((closed.shrinks q).mpr ⟨before, fun _ => other⟩)
      rw [if_pos here, Fs.opens, if_pos before, here, last]
      omega
    · have other : q ≠ p := fun here => before (here ▸ open')
      rw [if_neg other, Fs.opens, if_neg before]
      omega

structure Gains (s after : State) : Prop where
  healthy : Healthy after
  opens : ∀ q, opens s q ≤ opens after q

structure Pins (s after : State) : Prop extends Gains s after where
  more : ∃ q, Fs.opens s q < Fs.opens after q

theorem Gains.refl (healthy : Healthy s) : Gains s s := ⟨healthy, fun _ => le_refl _⟩

theorem Gains.trans {middle : State} (first : Gains s middle) (second : Gains middle after) : Gains s after :=
  ⟨second.healthy, fun q => le_trans (first.opens q) (second.opens q)⟩

theorem Pins.gains {middle : State} (first : Pins s middle) (second : Gains middle after) : Pins s after := by
  obtain ⟨q, less⟩ := first.more
  exact ⟨first.toGains.trans second, q, lt_of_lt_of_le less (second.opens q)⟩

theorem Adds.gains {more : Ptr → Int} (adds : Adds s after more) (nonneg : ∀ q, 0 ≤ more q) : Gains s after where
  healthy := adds.healthy
  opens := by
    intro q
    rw [adds.opens]
    have := nonneg q
    omega

theorem SameCache.gains (same : SameCache s after) (healthy : Healthy s) : Gains s after :=
  (same.adds healthy).gains fun _ => le_refl 0

theorem bracket_gains {opened worked : State} {iNo : Nat} (healthy : Healthy s) (opens : Opened s iNo p opened)
    (work : Gains opened worked) (closes : Closed worked p after) : Gains s after := by
  have first := opens.adds healthy
  have one : 0 < Fs.opens worked p := by
    have before := first.opens p
    have later := work.opens p
    have nonneg := opens_nonneg healthy p
    rw [single, if_pos rfl] at before
    omega
  have last := closes.adds work.healthy ((opens_pos work.healthy).mpr one)
  refine ⟨last.healthy, ?_⟩
  intro q
  have before := first.opens q
  have middle := work.opens q
  have later := last.opens q
  omega

theorem lastEntry_same {name : List UInt8} {result : Int} {de : Dirent}
    (ran : lastEntry s p name = .ok (result, de, after)) : SameCache s after ∧ result = ((s.inode p).iNo : Int) := by
  simp only [lastEntry, bind_ok, pure_ok, Prod.mk.injEq] at ran
  obtain ⟨locked, down, _, _, _, _, unlocked, up, rfl, _, rfl⟩ := ran
  obtain ⟨_, rfl⟩ := semaDown_ok.mp down
  obtain ⟨_, rfl⟩ := semaUp_ok.mp up
  exact ⟨(SameCache.lock s p 0).trans (.lock _ p 1), by simp⟩

theorem walk_slash {name rest : List UInt8} {result : Int} {de : Dirent} (healthy : Healthy s)
    (ran : walk s p name (slash :: rest) = .ok (result, de, after)) :
    (result = -direntIsntExist ∧ ∃ worked, SameCache s worked ∧ Closed worked p after) ∨
    ∃ worked closed iNo q opened, SameCache s worked ∧ Closed worked p closed ∧ Opened closed iNo q opened ∧
      walk opened q [] rest = .ok (result, de, after) := by
  rw [walk, if_pos rfl] at ran
  simp only [bind_ok] at ran
  obtain ⟨_, _, locked, down, dirIdx, _, ran⟩ := ran
  obtain ⟨_, rfl⟩ := semaDown_ok.mp down
  have lockedSame := SameCache.lock s p 0
  split at ran
  · simp only [bind_ok, pure_ok, Prod.mk.injEq] at ran
    obtain ⟨closed, close, rfl, _, rfl⟩ := ran
    exact .inl ⟨rfl, _, lockedSame, inodeClose_closed (healthy.cache.same lockedSame) close⟩
  · simp only [bind_ok] at ran
    obtain ⟨entry, _, unlocked, up, ran⟩ := ran
    obtain ⟨_, rfl⟩ := semaUp_ok.mp up
    have same := lockedSame.trans (.lock _ p 1)
    split at ran
    · simp only [bind_ok, pure_ok, Prod.mk.injEq] at ran
      obtain ⟨closed, close, rfl, _, rfl⟩ := ran
      exact .inl ⟨rfl, _, same, inodeClose_closed (healthy.cache.same same) close⟩
    · simp only [bind_ok, Prod.exists] at ran
      obtain ⟨closed, close, found, opened, opens, q, pointer, ran⟩ := ran
      have closes := inodeClose_closed (healthy.cache.same same) close
      cases found with
      | none => cases pointer
      | some r =>
        obtain rfl := deref_some.mp pointer
        exact .inr ⟨_, closed, entry.iNo, r, opened, same, closes, (inodeOpen_opened closes.inv opens).2, ran⟩

theorem walk_adds {name rest : List UInt8} {result : Int} {de : Dirent} (healthy : Healthy s)
    (member : p ∈ s.openInodes) (ran : walk s p name rest = .ok (result, de, after)) :
    (result = -direntIsntExist ∧ Adds s after fun q => -single p q) ∨
    (0 ≤ result ∧ ∃ r, Adds s after fun q => single r q - single p q) := by
  induction rest generalizing s p name with
  | nil =>
    obtain ⟨same, rfl⟩ := lastEntry_same ran
    exact .inr ⟨Int.natCast_nonneg _, p, (same.adds healthy).congr fun q => by omega⟩
  | cons c rest ih =>
    by_cases here : c = slash
    · subst here
      rcases walk_slash healthy ran with ⟨failed, worked, same, closes⟩ |
        ⟨worked, closed, iNo, q, opened, same, closes, opens, ran⟩
      · have first := same.adds healthy
        have second := closes.adds first.healthy (by rw [same.openInodes]; exact member)
        exact .inl ⟨failed, (first.trans second).congr fun q => by omega⟩
      · have first := same.adds healthy
        have second := closes.adds first.healthy (by rw [same.openInodes]; exact member)
        have third := opens.adds second.healthy
        have sofar := (first.trans second).trans third
        rcases ih third.healthy opens.isOpen.mem ran with ⟨failed, last⟩ | ⟨fine, r, last⟩
        · exact .inl ⟨failed, (sofar.trans last).congr fun q => by omega⟩
        · exact .inr ⟨fine, r, (sofar.trans last).congr fun q => by omega⟩
    · rw [walk, if_neg here] at ran
      exact ih healthy member ran

/-- A path that is resolved leaves the directory of its last component open. -/
theorem pathPrase_opens {pathname : List UInt8} {result : Int} {de : Dirent} (healthy : Healthy s)
    (ran : pathPrase s pathname = .ok (result, de, after)) :
    (result = -direntIsntExist ∧ Gains s after) ∨ (0 ≤ result ∧ Pins s after) := by
  cases pathname with
  | nil => cases ran
  | cons c rest =>
    simp only [pathPrase, bind_ok, Prod.exists] at ran
    obtain ⟨found, opened, opens, q, pointer, ran⟩ := ran
    cases found with
    | none => cases pointer
    | some p =>
      obtain rfl := deref_some.mp pointer
      have open' := (inodeOpen_opened healthy.cache opens).2
      have first := open'.adds healthy
      rcases walk_adds first.healthy open'.isOpen.mem ran with ⟨failed, last⟩ | ⟨fine, r, last⟩
      · refine .inl ⟨failed, ((first.trans last).congr (fun q => ?_)).gains fun _ => le_refl 0⟩
        omega
      · have total : Adds s after (single r) := (first.trans last).congr fun q => by omega
        refine .inr ⟨fine, total.gains fun q => ?_, r, ?_⟩
        · rw [single]
          split <;> decide
        · rw [total.opens, single, if_pos rfl]
          omega

theorem pathPrase_gains {pathname : List UInt8} {result : Int} {de : Dirent} (healthy : Healthy s)
    (ran : pathPrase s pathname = .ok (result, de, after)) : Gains s after := by
  rcases pathPrase_opens healthy ran with ⟨_, gains⟩ | ⟨_, pins⟩
  · exact gains
  · exact pins.toGains

def PathExists (s : State) (pathname : List UInt8) : Prop :=
  match pathPrase s pathname with
  | .ok (result, _, _) => result ≠ -direntIsntExist
  | .error _ => True

instance (s : State) (pathname : List UInt8) : Decidable (PathExists s pathname) :=
  match resolved : pathPrase s pathname with
  | .ok (result, _, _) => decidable_of_iff (result ≠ -direntIsntExist) (by rw [PathExists, resolved])
  | .error _ => .isTrue (by rw [PathExists, resolved]; exact True.intro)

theorem pathPrase_pins {pathname : List UInt8} {result : Int} {de : Dirent} (healthy : Healthy s)
    (exist : PathExists s pathname) (ran : pathPrase s pathname = .ok (result, de, after)) : Pins s after := by
  rcases pathPrase_opens healthy ran with ⟨failed, _⟩ | ⟨_, pins⟩
  · rw [PathExists, ran] at exist
    exact absurd failed exist
  · exact pins

theorem inodeOpen_deref {iNo : Nat} {found : Option Ptr} {opened : State} (cache : CacheInv s)
    (ran : inodeOpen s iNo = .ok (found, opened)) (pointer : deref found = .ok p) : Opened s iNo p opened := by
  cases found with
  | none => cases pointer
  | some q =>
    obtain rfl := deref_some.mp pointer
    exact (inodeOpen_opened cache ran).2

theorem locked_gains {iNo : Nat} {opened locked worked unlocked : State} (healthy : Healthy s)
    (opens : Opened s iNo p opened) (down : semaDown opened p = .ok locked) (work : Healthy locked → Gains locked worked)
    (up : semaUp worked p = .ok unlocked) (close : inodeClose unlocked p = .ok after) : Gains s after := by
  obtain ⟨_, rfl⟩ := semaDown_ok.mp down
  obtain ⟨_, rfl⟩ := semaUp_ok.mp up
  have first := (SameCache.lock opened p 0).gains (opens.adds healthy).healthy
  have second := first.trans (work first.healthy)
  have third := second.trans ((SameCache.lock worked p 1).gains second.healthy)
  exact bracket_gains healthy opens third (inodeClose_closed third.healthy.cache close)

theorem diskInodeDelete_gains {iNo : Nat} (healthy : Healthy s) (ran : diskInodeDelete s iNo = .ok after) :
    Gains s after := by
  simp only [diskInodeDelete, bind_ok, Prod.exists] at ran
  obtain ⟨freed, free, found, opened, opens, q, pointer, locked, down, result, sized, change, unlocked, up, close⟩ := ran
  have first := (fsBitmapFree_same free).gains healthy
  exact first.trans (locked_gains first.healthy (inodeOpen_deref first.healthy.cache opens pointer) down
    (fun healthy => (inodeSizeChange_same change).gains healthy) up close)

theorem addNode_gains {pINo dev result : Int} {name : Bytes.Buffer} {type : FileType} (healthy : Healthy s)
    (ran : addNode s pINo name type dev = .ok (result, after)) : Gains s after := by
  simp only [addNode, bind_ok, Prod.exists] at ran
  obtain ⟨found, opened, opens, q, pointer, locked, down, added, worked, add, ran⟩ := ran
  have open' := inodeOpen_deref healthy.cache opens pointer
  split at ran
  · simp only [bind_ok, pure_ok, Prod.mk.injEq] at ran
    obtain ⟨deleted, delete, unlocked, up, closed, close, _, rfl⟩ := ran
    apply locked_gains healthy open' down _ up close
    intro healthy
    have first := (direntAdd_same add).gains healthy
    split at delete
    · exact first.trans (diskInodeDelete_gains first.healthy delete)
    · cases delete
      exact first
  · simp only [bind_ok, pure_ok, Prod.mk.injEq] at ran
    obtain ⟨unlocked, up, closed, close, _, rfl⟩ := ran
    exact locked_gains healthy open' down (fun healthy => (direntAdd_same add).gains healthy) up close

theorem removeNode_gains {pINo result : Int} {de : Dirent} (healthy : Healthy s)
    (ran : removeNode s pINo de = .ok (result, after)) : Gains s after := by
  simp only [removeNode, bind_ok, pure_ok, Prod.exists, Prod.mk.injEq] at ran
  obtain ⟨deleted, delete, found, opened, opens, q, pointer, locked, down, _, worked, remove, unlocked, up, closed, close,
    _, rfl⟩ := ran
  have first := diskInodeDelete_gains healthy delete
  exact first.trans (locked_gains first.healthy (inodeOpen_deref first.healthy.cache opens pointer) down
    (fun healthy => (direntDelete_same remove).gains healthy) up close)

def Resolves (s : State) (pathname : List UInt8) (after : State) : Prop :=
  ∃ pINo de resolved, pathPrase s pathname = .ok (pINo, de, resolved) ∧ (Healthy resolved → Gains resolved after)

theorem Resolves.gains {pathname : List UInt8} (resolves : Resolves s pathname after) (healthy : Healthy s) :
    Gains s after := by
  obtain ⟨pINo, de, resolved, resolve, later⟩ := resolves
  have first := pathPrase_gains healthy resolve
  exact first.trans (later first.healthy)

theorem Resolves.pins {pathname : List UInt8} (resolves : Resolves s pathname after) (healthy : Healthy s)
    (exist : PathExists s pathname) : Pins s after := by
  obtain ⟨pINo, de, resolved, resolve, later⟩ := resolves
  have first := pathPrase_pins healthy exist resolve
  exact first.gains (later first.healthy)

theorem sysMknod_cases {pathname : List UInt8} {type : FileType} {dev result : Int}
    (ran : sysMknod s pathname type dev = .ok (result, after)) :
    (type ≠ .chr ∧ type ≠ .reg ∧ after = s) ∨ ((type = .chr ∨ type = .reg) ∧ Resolves s pathname after) := by
  simp only [sysMknod] at ran
  split at ran
  · rename_i invalid
    cases ran
    exact .inl ⟨invalid.1, invalid.2, rfl⟩
  · rename_i valid
    have known : type = .chr ∨ type = .reg := by
      by_contra other
      exact valid (not_or.mp other)
    simp only [bind_ok, Prod.exists] at ran
    obtain ⟨pINo, de, resolved, resolve, ran⟩ := ran
    refine .inr ⟨known, pINo, de, resolved, resolve, ?_⟩
    intro healthy
    split at ran
    · cases ran
      exact .refl healthy
    · split at ran
      · cases ran
        exact .refl healthy
      · split at ran
        · have create := (diskInodeCreate_same resolved).gains healthy
          rcases creates : diskInodeCreate resolved with ⟨number, made⟩
          rw [creates] at ran create
          dsimp only at ran
          split at ran
          · cases ran
            exact create
          · exact create.trans (addNode_gains create.healthy ran)
        · exact addNode_gains healthy ran

theorem sysUnlink_resolves {pathname : List UInt8} {result : Int} (ran : sysUnlink s pathname = .ok (result, after)) :
    Resolves s pathname after := by
  simp only [sysUnlink, bind_ok, Prod.exists] at ran
  obtain ⟨pINo, de, resolved, resolve, ran⟩ := ran
  refine ⟨pINo, de, resolved, resolve, ?_⟩
  intro healthy
  split at ran
  · cases ran
    exact .refl healthy
  · split at ran
    · cases ran
      exact .refl healthy
    · split at ran
      · cases ran
        exact .refl healthy
      · exact removeNode_gains healthy ran

theorem sysRmdir_resolves {pathname : List UInt8} {result : Int} (ran : sysRmdir s pathname = .ok (result, after)) :
    Resolves s pathname after := by
  simp only [sysRmdir, bind_ok, Prod.exists] at ran
  obtain ⟨pINo, de, resolved, resolve, ran⟩ := ran
  refine ⟨pINo, de, resolved, resolve, ?_⟩
  intro healthy
  split at ran
  · cases ran
    exact .refl healthy
  · split at ran
    · cases ran
      exact .refl healthy
    · split at ran
      · cases ran
        exact .refl healthy
      · simp only [bind_ok, Prod.exists] at ran
        obtain ⟨found, opened, opens, q, pointer, locked, down, unlocked, up, closed, close, ran⟩ := ran
        have first := locked_gains healthy (inodeOpen_deref healthy.cache opens pointer) down .refl up close
        split at ran
        · cases ran
          exact first
        · exact first.trans (removeNode_gains first.healthy ran)

theorem sysStat_resolves {pathname : List UInt8} {result : Int} {stat : Option Stat}
    (ran : sysStat s pathname = .ok (result, stat, after)) :
    Resolves s pathname after := by
  simp only [sysStat, bind_ok, Prod.exists] at ran
  obtain ⟨pINo, de, resolved, resolve, ran⟩ := ran
  refine ⟨pINo, de, resolved, resolve, ?_⟩
  intro healthy
  split at ran
  · cases ran
    exact .refl healthy
  · split at ran
    · cases ran
      exact .refl healthy
    · simp only [bind_ok, pure_ok, Prod.exists, Prod.mk.injEq] at ran
      obtain ⟨found, opened, opens, q, pointer, locked, down, unlocked, up, closed, close, _, _, rfl⟩ := ran
      exact locked_gains healthy (inodeOpen_deref healthy.cache opens pointer) down .refl up close

theorem sysMkdir_resolves {pathname : List UInt8} {result : Int} (ran : sysMkdir s pathname = .ok (result, after)) :
    Resolves s pathname after := by
  simp only [sysMkdir, bind_ok, Prod.exists] at ran
  obtain ⟨iNo, made, mknod, ran⟩ := ran
  rcases sysMknod_cases mknod with ⟨_, wrong, _⟩ | ⟨_, pINo, de, resolved, resolve, later⟩
  · exact absurd rfl wrong
  refine ⟨pINo, de, resolved, resolve, ?_⟩
  intro healthy
  have first := later healthy
  split at ran
  · cases ran
    exact first
  · simp only [bind_ok, pure_ok, Prod.exists, Prod.mk.injEq] at ran
    obtain ⟨_, entry, again, resolve', _, _, found, opened, opens, q, pointer, locked, down, _, removed, remove, _, added,
      add, unlocked, up, closed, close, found', opened', opens', q', pointer', locked', down', _, dot, addDot, _, ddot,
      addDdot, unlocked', up', closed', close', _, rfl⟩ := ran
    have second := first.trans (pathPrase_gains first.healthy resolve')
    have third := second.trans (locked_gains second.healthy (inodeOpen_deref second.healthy.cache opens pointer) down
      (fun healthy => ((direntDelete_same remove).trans (direntAdd_same add)).gains healthy) up close)
    exact third.trans (locked_gains third.healthy (inodeOpen_deref third.healthy.cache opens' pointer') down'
      (fun healthy => ((direntAdd_same addDot).trans (direntAdd_same addDdot)).gains healthy) up' close')

end RecoverOs.Fs
