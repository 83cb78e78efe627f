import RecoverOs.Fs.TreeCalls
import RecoverOs.Fs.InodeSessions

namespace RecoverOs.Fs

open Bytes Transition

def dotEntries : List Entry := [⟨ddot, 0, .dir⟩, ⟨dot, 0, .dir⟩]

def rootTree : Tree := Function.update (fun _ => none) 0 (some dotEntries)

theorem rootTree_some {d : Nat} {entries : List Entry} (found : rootTree d = some entries) :
    d = 0 ∧ entries = dotEntries := by
  by_cases here : d = 0
  · rw [here, rootTree, Function.update_self] at found
    exact ⟨here, (Option.some.inj found).symm⟩
  · rw [rootTree, Function.update_of_ne here] at found
    cases found

theorem rootTree_names (d : Nat) (entry : Entry) : ¬ Names rootTree d entry := by
  rintro ⟨⟨entries, found, member⟩, plain, _⟩
  obtain ⟨_, rfl⟩ := rootTree_some found
  simp only [dotEntries, List.mem_cons, List.not_mem_nil, or_false] at member
  rcases member with rfl | rfl
  · exact plain.2 rfl
  · exact plain.1 rfl

theorem rootTree_consistent : Consistent rootTree fun i => i = 0 where
  root := rfl
  dirs := fun d entries found => (rootTree_some found).1
  distinct := by
    intro d entries found
    rw [(rootTree_some found).2]
    decide
  self := by
    intro d entries found
    obtain ⟨rfl, rfl⟩ := rootTree_some found
    simp [dotEntries]
  parent := by
    intro d entries found
    obtain ⟨rfl, rfl⟩ := rootTree_some found
    exact ⟨0, by simp [dotEntries], by simp⟩
  typed := fun d entry names => absurd names (rootTree_names d entry)
  once := fun d _ entry _ names => absurd names (rootTree_names d entry)
  reached := by
    intro i
    constructor
    · rintro rfl
      exact .refl
    · intro reached
      induction reached with
      | refl => rfl
      | tail _ child _ =>
        obtain ⟨entry, names, _⟩ := child
        exact absurd names (rootTree_names _ entry)

variable {disk : Disk} {part : Partition} {s : State}

theorem format_sound (formatted : format disk part = .ok s) :
    Sound part.superBlockBid (fun i => False ∨ i = 0) rootTree s ∧ s.sb = part.superBlock := by
  have blank : FileInv part.superBlockBid (fun _ => False) (mounted (partitionFormat disk part) part.superBlock) :=
    ⟨mounted_own, fun p member => by cases member⟩
  have noLocks : Locks (mounted (partitionFormat disk part) part.superBlock) [] :=
    ⟨fun q held => absurd held List.not_mem_nil, fun q member => absurd member List.not_mem_nil⟩
  simp only [format, createRootDir] at formatted
  rcases creates : diskInodeCreate (mounted (partitionFormat disk part) part.superBlock) with ⟨result, made⟩
  rw [creates] at formatted
  simp only [bind_ok, Prod.exists, assert_ok, beq_iff_eq, decide_eq_true_eq] at formatted
  obtain ⟨_, zero, opened, loaded, opens, p, pointer, added, first, addFirst, _, worked, added', second, addSecond, _,
    worked', close⟩ := formatted
  rcases diskInodeCreate_spec blank (fun _ none => none.elim) creates with ⟨failed, _⟩ | ⟨i, number, create⟩
  · rw [zero] at failed
    cases failed
  obtain rfl : i = 0 := by omega
  obtain ⟨q, loaded', opens', open', enter, locks, _⟩ :=
    inodeOpen_spec create.inv (.inr rfl) (noLocks.steady create.steady) fun q inside => by cases inside
  rw [opens] at opens'
  cases opens'
  obtain rfl := deref_some.mp pointer
  have empty : Lists loaded 0 [] := by
    apply lists_nil
    rw [enter.files.size 0 (.inr rfl), create.empty]
  have isDdot : Dirent.Is { iNo := 0, filename := dotName 2, fType := .dir } ⟨ddot, 0, .dir⟩ :=
    ⟨rfl, spells_cstr ddot, rfl⟩
  have isDot : Dirent.Is { iNo := 0, filename := dotName 1, fType := .dir } ⟨dot, 0, .dir⟩ := ⟨rfl, spells_cstr dot, rfl⟩
  rcases direntAdd_outcome empty enter.inv.toOwnInv open'.isOpen isDdot ddot_name (by decide)
    (fun code same => by cases same) (fun other inside => by cases inside) with
    ⟨_, changed, call, updated, lists⟩ | ⟨_, _, _, call, failed, _⟩
  swap
  · rw [addFirst] at call
    cases call
    exact absurd worked (by omega)
  rw [addFirst] at call
  cases call
  have firstOpen := open'.isOpen.same updated.steady.toSameCache
  rcases direntAdd_outcome lists updated.own firstOpen isDot dot_name (by decide)
    (fun code same => by cases same) (by decide) with
    ⟨_, changed, call, updated', lists'⟩ | ⟨_, _, _, call, failed, _⟩
  swap
  · rw [addSecond] at call
    cases call
    exact absurd worked' (by omega)
  rw [addSecond] at call
  cases call
  have both := updated.trans updated'
  obtain ⟨closed, close', _, leave, closedLocks⟩ := inodeClose_spec (both.inv enter.inv)
    (open'.isOpen.same both.steady.toSameCache) (locks.steady both.steady) List.not_mem_nil
  rw [close] at close'
  cases close'
  have marks : ∀ j < inodeCntMax, inodeMark s j = if j = 0 then 1 else 0 := by
    intro j bound
    have small : j < blockSize := Nat.lt_trans bound (by decide)
    rw [leave.marks, both.marks j bound, enter.marks, create.marks j bound, inodeMark, bitmapByte_eq,
      Nat.div_eq_of_lt small, Nat.mod_eq_of_lt small, Nat.zero_add]
    split
    · rfl
    · exact partitionFormat_inodeBitmap bound
  have used : Used s = fun i => i = 0 := by
    funext i
    apply propext
    constructor
    · rintro ⟨bound, marked⟩
      by_contra other
      rw [marks i bound, if_neg other] at marked
      exact marked rfl
    · rintro rfl
      exact ⟨by decide, by rw [marks 0 (by decide)]; decide⟩
  refine ⟨⟨⟨⟨leave.inv, ?_, ?_, closedLocks⟩, ?_, ?_, ?_⟩, ?_⟩, ?_⟩
  · intro d entries found
    exact .inr (rootTree_some found).1
  · intro d entries found
    obtain ⟨rfl, rfl⟩ := rootTree_some found
    exact lists'.agree leave.files (.inr rfl)
  · rw [used]
    exact rootTree_consistent
  · intro i bound
    rw [marks i bound]
    split
    · exact .inr rfl
    · exact .inl rfl
  · rw [used]
    exact fun i root => .inr root
  · rintro i (none | rfl) clear
    · exact none.elim
    · rw [marks 0 (by decide)] at clear
      cases clear
  · rw [leave.sb, both.steady.sb, enter.sb, create.steady.sb]
    rfl

end RecoverOs.Fs
