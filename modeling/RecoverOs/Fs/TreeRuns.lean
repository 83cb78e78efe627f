import RecoverOs.Fs.TreeEdits

namespace RecoverOs.Fs

open Bytes Transition

inductive IsDir (s : State) : Nat → Prop
  | root : IsDir s 0
  | child {d : Nat} {entry : Entry} (above : IsDir s d) (member : entry ∈ dirEntries s d) (isDir : entry.fType = .dir) :
      IsDir s entry.iNo

def Edge (s : State) (d i : Nat) : Prop := IsDir s d ∧ ∃ entry ∈ dirEntries s d, entry.iNo = i

structure NamedBy (s : State) (i d : Nat) (entry : Entry) : Prop where
  isDir : IsDir s d
  member : entry ∈ dirEntries s d
  plain : entry.Plain
  number : entry.iNo = i

structure TreeConsistent (s : State) : Prop where
  bits : ∀ i < inodeCntMax, inodeMark s i = 0 ∨ inodeMark s i = 1
  marked : ∀ i, (i < inodeCntMax ∧ inodeMark s i = 1) ↔ Relation.ReflTransGen (Edge s) 0 i
  named : ∀ i < inodeCntMax, i ≠ 0 → inodeMark s i = 1 → ∃ d entry, NamedBy s i d entry
  once : ∀ i d d' entry entry', NamedBy s i d entry → NamedBy s i d' entry' → d = d' ∧ entry = entry'
  rootUnnamed : ∀ d entry, ¬ NamedBy s 0 d entry
  distinct : ∀ d, IsDir s d → ((dirEntries s d).map Entry.name).Nodup
  self : ∀ d, IsDir s d → ⟨dot, d, .dir⟩ ∈ dirEntries s d
  parent : ∀ d, IsDir s d → ∃ up, ⟨ddot, up, .dir⟩ ∈ dirEntries s d ∧
    if d = 0 then up = 0 else ∃ entry, NamedBy s d up entry

structure SameTree (s after : State) : Prop where
  dirs : ∀ d, IsDir after d ↔ IsDir s d
  entries : ∀ d, IsDir s d → dirEntries after d = dirEntries s d
  marks : ∀ i < inodeCntMax, inodeMark after i = inodeMark s i

inductive TreeOp where
  | mknod
  | mkdir
  | unlink
  | rmdir

structure TreeCall where
  op : TreeOp
  parents : List (List UInt8)
  last : List UInt8

def TreeCall.run (call : TreeCall) (s : State) : Except Halt (Int × State) :=
  match call.op with
  | .mknod => sysMknod s (pathOf (call.parents ++ [call.last])) .reg 0
  | .mkdir => sysMkdir s (pathOf (call.parents ++ [call.last]))
  | .unlink => sysUnlink s (pathOf (call.parents ++ [call.last]))
  | .rmdir => sysRmdir s (pathOf (call.parents ++ [call.last]))

def PlainComponent (name : List UInt8) : Prop :=
  name ≠ [] ∧ name.length ≤ 15 ∧ 0 ∉ name ∧ slash ∉ name ∧ name ≠ dot ∧ name ≠ ddot

instance (name : List UInt8) : Decidable (PlainComponent name) := inferInstanceAs (Decidable (_ ∧ _))

def resolveDir (s : State) (d : Nat) : List (List UInt8) → Option Nat
  | [] => some d
  | name :: rest =>
    match (dirEntries s d).find? fun entry => entry.name == name && entry.fType == .dir with
    | some entry => resolveDir s entry.iNo rest
    | none => none

def TreeCall.Admissible (call : TreeCall) (s : State) : Prop :=
  (∀ name ∈ call.parents ++ [call.last], PlainComponent name) ∧ (resolveDir s 0 call.parents).isSome

instance (call : TreeCall) (s : State) : Decidable (call.Admissible s) := inferInstanceAs (Decidable (_ ∧ _))

/-- A call in which no block allocation fails. -/
def treeStep (s : State) (call : TreeCall) : Except Halt State := do
  offer (decide (call.Admissible s))
  let (_, after) ← call.run s
  offer (!after.ranOut)
  return after

variable {base : Nat} {created : Nat → Prop} {tree : Tree} {s after : State}

theorem Intact.dirEntries (intact : Intact base created tree s) {d : Nat} {entries : List Entry}
    (found : tree d = some entries) : dirEntries s d = entries :=
  (intact.lists d entries found).dirEntries_eq

theorem Sound.isDir_some (sound : Sound base created tree s) {d : Nat} (isDir : IsDir s d) :
    ∃ entries, tree d = some entries := by
  induction isDir with
  | root => exact Option.isSome_iff_exists.mp sound.consistent.root
  | child above member isDir ih =>
    obtain ⟨entries, found⟩ := ih
    rw [sound.dirEntries found] at member
    exact Option.isSome_iff_exists.mp (sound.consistent.dir_entry found member isDir)

theorem Sound.isDir_reached (sound : Sound base created tree s) {d : Nat} (reached : Relation.ReflTransGen (Child tree) 0 d)
    {entries : List Entry} (found : tree d = some entries) : IsDir s d := by
  induction reached generalizing entries with
  | refl => exact .root
  | tail _ child ih =>
    obtain ⟨entry, names, rfl⟩ := child
    obtain ⟨siblings, listed, member⟩ := names.listed
    rcases (sound.consistent.typed _ entry names).2 with ⟨isDir, _⟩ | ⟨_, none⟩
    · exact .child (ih listed) (by rw [sound.dirEntries listed]; exact member) isDir
    · rw [none] at found
      cases found

theorem Sound.isDir_iff (sound : Sound base created tree s) (d : Nat) : IsDir s d ↔ ∃ entries, tree d = some entries := by
  constructor
  · exact sound.isDir_some
  · rintro ⟨entries, found⟩
    exact sound.isDir_reached ((sound.consistent.reached d).mp (sound.consistent.dirs d entries found)) found

theorem Consistent.node_used {used : Nat → Prop} {d : Nat} {entries : List Entry} {entry : Entry}
    (consistent : Consistent tree used) (found : tree d = some entries) (member : entry ∈ entries)
    (isNode : entry.fType ≠ .chr) : used entry.iNo := by
  by_cases plain : entry.Plain
  · exact consistent.used_entry ⟨⟨entries, found, member⟩, plain, isNode⟩
  · have special := consistent.dots_dir found member plain
    obtain ⟨sub, below⟩ := Option.isSome_iff_exists.mp (consistent.dir_entry found member special)
    exact consistent.dirs _ sub below

section

variable (sound : Sound base created tree s) (files : tree.NoDevice)
include sound files

theorem Sound.namedBy_iff {i d : Nat} {entry : Entry} : NamedBy s i d entry ↔ Names tree d entry ∧ entry.iNo = i := by
  constructor
  · rintro ⟨isDir, member, plain, number⟩
    obtain ⟨entries, found⟩ := sound.isDir_some isDir
    rw [sound.dirEntries found] at member
    exact ⟨⟨⟨entries, found, member⟩, plain, files d entries found entry member⟩, number⟩
  · rintro ⟨⟨⟨entries, found, member⟩, plain, _⟩, number⟩
    exact ⟨(sound.isDir_iff d).mpr ⟨entries, found⟩, by rw [sound.dirEntries found]; exact member, plain, number⟩

theorem Sound.edge_used {d i : Nat} (edge : Edge s d i) : Used s i := by
  obtain ⟨isDir, entry, member, rfl⟩ := edge
  obtain ⟨entries, found⟩ := sound.isDir_some isDir
  rw [sound.dirEntries found] at member
  exact sound.consistent.node_used found member (files d entries found entry member)

theorem Sound.treeConsistent : TreeConsistent s := by
  have names : ∀ i d entry, NamedBy s i d entry ↔ Names tree d entry ∧ entry.iNo = i :=
    fun i d entry => sound.namedBy_iff files
  have one : ∀ i < inodeCntMax, inodeMark s i = 1 ↔ inodeMark s i ≠ 0 := by
    intro i bound
    rcases sound.bits i bound with clear | set
    · simp [clear]
    · simp [set]
  have used : ∀ i, (i < inodeCntMax ∧ inodeMark s i = 1) ↔ Used s i := by
    intro i
    exact ⟨fun marked => ⟨marked.1, (one i marked.1).mp marked.2⟩, fun marked => ⟨marked.1, (one i marked.1).mpr marked.2⟩⟩
  constructor
  case bits => exact sound.bits
  case marked =>
    intro i
    rw [used]
    constructor
    · intro marked
      have reached := (sound.consistent.reached i).mp marked
      refine reached.lift id ?_
      rintro a b ⟨entry, named, rfl⟩
      have inside := (names entry.iNo a entry).mpr ⟨named, rfl⟩
      exact ⟨inside.isDir, entry, inside.member, rfl⟩
    · intro reached
      rcases reached.cases_tail with rfl | ⟨d, _, edge⟩
      · exact (sound.consistent.reached 0).mpr .refl
      · exact sound.edge_used files edge
  case named =>
    intro i bound other marked
    rcases ((sound.consistent.reached i).mp ((used i).mp ⟨bound, marked⟩)).cases_tail with rfl | ⟨d, _, entry, named, number⟩
    · exact absurd rfl other
    · exact ⟨d, entry, (names i d entry).mpr ⟨named, number⟩⟩
  case once =>
    intro i d d' entry entry' first second
    obtain ⟨named, number⟩ := (names i d entry).mp first
    obtain ⟨named', number'⟩ := (names i d' entry').mp second
    exact sound.consistent.once d d' entry entry' named named' (number.trans number'.symm)
  case rootUnnamed =>
    intro d entry named
    obtain ⟨inside, number⟩ := (names 0 d entry).mp named
    exact (sound.consistent.typed d entry inside).1 number
  case distinct =>
    intro d isDir
    obtain ⟨entries, found⟩ := sound.isDir_some isDir
    rw [sound.dirEntries found]
    exact sound.consistent.distinct d entries found
  case self =>
    intro d isDir
    obtain ⟨entries, found⟩ := sound.isDir_some isDir
    rw [sound.dirEntries found]
    exact sound.consistent.self d entries found
  case parent =>
    intro d isDir
    obtain ⟨entries, found⟩ := sound.isDir_some isDir
    rw [sound.dirEntries found]
    obtain ⟨up, above, isParent⟩ := sound.consistent.parent d entries found
    refine ⟨up, above, ?_⟩
    by_cases root : d = 0
    · rw [if_pos root] at isParent ⊢
      exact isParent
    · rw [if_neg root] at isParent ⊢
      obtain ⟨entry, named, number⟩ := isParent
      exact ⟨entry, (names d up entry).mpr ⟨named, number⟩⟩

end

theorem Sound.sameTree {created' : Nat → Prop} (sound : Sound base created tree s) (sound' : Sound base created' tree after)
    (marks : ∀ i < inodeCntMax, inodeMark after i = inodeMark s i) : SameTree s after where
  dirs := fun d => (sound'.isDir_iff d).trans (sound.isDir_iff d).symm
  entries := by
    intro d isDir
    obtain ⟨entries, found⟩ := sound.isDir_some isDir
    rw [sound.dirEntries found, sound'.dirEntries found]
  marks := marks

theorem Intact.leads (intact : Intact base created tree s) {d target : Nat} {parents : List (List UInt8)}
    {entries : List Entry} (found : tree d = some entries) (resolved : resolveDir s d parents = some target) :
    Leads tree d parents target := by
  induction parents generalizing d entries with
  | nil =>
    cases resolved
    exact .here _
  | cons name rest ih =>
    rw [resolveDir] at resolved
    split at resolved
    · rename_i entry named
      have facts := List.find?_some named
      rw [Bool.and_eq_true, beq_iff_eq, beq_iff_eq] at facts
      have member := List.mem_of_find?_eq_some named
      rw [intact.dirEntries found] at member
      obtain ⟨sub, below⟩ := Option.isSome_iff_exists.mp (intact.consistent.dir_entry found member facts.2)
      rw [← facts.1]
      exact .down found member facts.2 (ih below resolved)
    · cases resolved

theorem PlainComponent.component {name : List UInt8} (plain : PlainComponent name) : Component name where
  short := Nat.lt_succ_of_le plain.2.1
  nonzero := plain.2.2.1
  nonempty := plain.1
  slashless := plain.2.2.2.1

theorem Fresh.noDevice {d : Nat} {entry : Entry} {sub : Option (List Entry)} (fresh : Fresh d entry sub)
    {siblings : List Entry} (listed : sub = some siblings) : ∀ other ∈ siblings, other.fType ≠ .chr := by
  intro other member
  cases fresh with
  | file => cases listed
  | directory =>
    cases listed
    simp only [newDir, List.mem_cons, List.not_mem_nil, or_false] at member
    rcases member with rfl | rfl
    · exact FileType.noConfusion
    · exact FileType.noConfusion

theorem Tree.NoDevice.add {d : Nat} {entry : Entry} {entries : List Entry} {sub : Option (List Entry)}
    (files : tree.NoDevice) (found : tree d = some entries) (fresh : Fresh d entry sub) (apart : entry.iNo ≠ d) :
    (tree.add d entries entry sub).NoDevice := by
  intro e siblings listed other member
  rcases add_cases apart listed with ⟨_, rfl⟩ | ⟨_, same⟩ | ⟨_, _, old⟩
  · rcases List.mem_append.mp member with before | new
    · exact files d entries found other before
    · rw [List.mem_singleton.mp new]
      exact fresh.isNode
  · exact fresh.noDevice same other member
  · exact files e siblings old other member

theorem Tree.NoDevice.remove {d : Nat} {entry : Entry} {entries rest : List Entry} (files : tree.NoDevice)
    (found : tree d = some entries) (split : entries.Perm (entry :: rest)) :
    (tree.remove d rest entry.iNo).NoDevice := by
  intro e siblings listed other member
  by_cases here : e = d
  · rw [here, Tree.remove_here] at listed
    cases listed
    exact files d entries found other (split.mem_iff.mpr (List.mem_cons_of_mem _ member))
  · by_cases gone : e = entry.iNo
    · rw [gone, Tree.remove_gone (gone ▸ here)] at listed
      cases listed
    · rw [Tree.remove_other here gone] at listed
      exact files e siblings listed other member

def TreeInv (base : Nat) (s : State) : Prop := ∃ created tree, Sound base created tree s ∧ tree.NoDevice

/-- What one call does: it returns, a negative result has changed nothing, and the tree stays consistent. -/
structure TreeResult (base : Nat) (s : State) (result : Int) (after : State) : Prop where
  failed : result < 0 → SameTree s after
  inv : after.ranOut = false → TreeInv base after

theorem RemoveOutcome.treeResult {target : Nat} {entries : List Entry} {last : List UInt8} {result : Int}
    (outcome : RemoveOutcome base created tree s target entries last result after) (sound : Sound base created tree s)
    (files : tree.NoDevice) (found : tree target = some entries) : TreeResult base s result after := by
  cases outcome with
  | failed negative undone locks =>
    have whole := sound.undone undone locks
    exact ⟨fun _ => sound.sameTree whole fun i _ => undone.marks i, fun _ => ⟨created, tree, whole, files⟩⟩
  | removed success entry rest named split removed =>
    exact ⟨fun negative => by omega, fun _ => ⟨created, _, ⟨removed.intact, removed.idle sound.idle⟩,
      files.remove found split⟩⟩

theorem treeCall_spec (inv : TreeInv base s) (call : TreeCall) (admissible : call.Admissible s) :
    ∃ result after, call.run s = .ok (result, after) ∧ TreeResult base s result after := by
  obtain ⟨created, tree, sound, files⟩ := inv
  obtain ⟨plain, resolved⟩ := admissible
  obtain ⟨target, resolved⟩ := Option.isSome_iff_exists.mp resolved
  obtain ⟨top, root⟩ := Option.isSome_iff_exists.mp sound.consistent.root
  have leads := sound.leads root resolved
  obtain ⟨entries, found⟩ := sound.leads_dir leads
  have slashless : ∀ name ∈ call.parents, slash ∉ name := fun name inside =>
    (plain name (List.mem_append_left _ inside)).component.slashless
  have lastPlain := plain call.last (by simp)
  have good := lastPlain.component
  have special := lastPlain.2.2.2.2
  unfold TreeCall.run
  cases call.op with
  | mknod =>
    obtain ⟨result, after, ran, outcome⟩ := @sysMknod_spec base created tree s target entries call.parents call.last .reg 0
      sound leads slashless good found (.inr rfl)
    refine ⟨result, after, ran, ?_⟩
    cases outcome with
    | failed negative why created' whole idle marks sb blocks files' =>
      have sound' : Sound base created' tree after := ⟨whole, idle sound.idle⟩
      exact ⟨fun _ => sound.sameTree sound' marks, fun _ => ⟨created', tree, sound', files⟩⟩
    | device isChr => cases isChr
    | file i isReg number first unused absent whole idle empty marks ranOut =>
      refine ⟨fun negative => by omega, fun _ => ⟨_, _, ⟨whole, idle sound.idle⟩, ?_⟩⟩
      exact files.add found (.file rfl) (sound.consistent.unused_ne unused found)
  | mkdir =>
    obtain ⟨result, after, ran, outcome⟩ := sysMkdir_spec sound leads slashless good found
    refine ⟨result, after, ran, ?_⟩
    cases outcome with
    | failed negative created' whole marks =>
      exact ⟨fun _ => sound.sameTree whole marks, fun _ => ⟨created', tree, whole, files⟩⟩
    | made success i unused absent whole =>
      refine ⟨fun negative => by omega, fun enough => ⟨_, _, whole enough, ?_⟩⟩
      exact files.add found (.directory rfl) (sound.consistent.unused_ne unused found)
  | unlink =>
    obtain ⟨result, after, ran, outcome⟩ := sysUnlink_spec sound.toIntact leads slashless good special found
      fun entry member _ => files target entries found entry member
    exact ⟨result, after, ran, outcome.treeResult sound files found⟩
  | rmdir =>
    obtain ⟨result, after, ran, outcome⟩ := sysRmdir_spec sound.toIntact leads slashless good special found
    exact ⟨result, after, ran, outcome.treeResult sound files found⟩

theorem treeStep_inv (s : State) (call : TreeCall) (after : State) (inv : TreeInv base s)
    (ran : treeStep s call = .ok after) : TreeInv base after := by
  simp only [treeStep, bind_ok, offer_ok, pure_ok, decide_eq_true_eq, Prod.exists, Bool.not_eq_true'] at ran
  obtain ⟨_, admissible, result, final, call', _, enough, rfl⟩ := ran
  obtain ⟨result', after, ran, outcome⟩ := treeCall_spec inv call admissible
  rw [call'] at ran
  cases ran
  exact outcome.inv enough

theorem format_treeInv {disk : Disk} {part : Partition} (formatted : format disk part = .ok s) :
    TreeInv part.superBlockBid s := by
  refine ⟨_, rootTree, (format_sound formatted).1, ?_⟩
  intro d entries found entry member
  obtain ⟨_, rfl⟩ := rootTree_some found
  simp only [dotEntries, List.mem_cons, List.not_mem_nil, or_false] at member
  rcases member with rfl | rfl
  · exact FileType.noConfusion
  · exact FileType.noConfusion

/-- In every state that calls reach from a freshly formatted partition the tree is consistent, and a call that returns a
    negative value leaves it and the inode bitmap as they were. -/
theorem tree_consistent (disk : Disk) (part : Partition) (start : State) (formatted : format disk part = .ok start)
    (calls : List TreeCall) (s : State) (ran : run treeStep start calls = .ok s) :
    TreeConsistent s ∧ ∀ call : TreeCall, call.Admissible s →
      ∃ result after, call.run s = .ok (result, after) ∧ (result < 0 → SameTree s after) := by
  have inv := run_invariant (fun s call after inv _ ran => treeStep_inv s call after inv ran) (format_treeInv formatted)
    (meets_true treeStep start calls) ran
  refine ⟨?_, ?_⟩
  · obtain ⟨created, tree, sound, files⟩ := inv
    exact sound.treeConsistent files
  · intro call admissible
    obtain ⟨result, after, called, outcome⟩ := treeCall_spec inv call admissible
    exact ⟨result, after, called, outcome.failed⟩

def deepCalls : List TreeCall :=
  [⟨.mkdir, [], [97]⟩, ⟨.mknod, [[97]], [102]⟩, ⟨.rmdir, [], [97]⟩, ⟨.unlink, [[97]], [102]⟩, ⟨.rmdir, [], [97]⟩,
    ⟨.mkdir, [], [98]⟩]

theorem tree_consistent_deep : ∃ start s, format (fun _ _ => 7) ⟨64, 800⟩ = .ok start ∧
    run treeStep start deepCalls = .ok s ∧
    dirEntries s 0 = [⟨ddot, 0, .dir⟩, ⟨dot, 0, .dir⟩, ⟨[98], 1, .dir⟩] ∧
    dirEntries s 1 = [⟨dot, 1, .dir⟩, ⟨ddot, 0, .dir⟩] ∧ TreeConsistent s := by
  have evaluated : endsIn (format (fun _ _ => 7) ⟨64, 800⟩) (fun start =>
      endsIn (run treeStep start deepCalls) fun s => decide (
        dirEntries s 0 = [⟨ddot, 0, .dir⟩, ⟨dot, 0, .dir⟩, ⟨[98], 1, .dir⟩] ∧
        dirEntries s 1 = [⟨dot, 1, .dir⟩, ⟨ddot, 0, .dir⟩])) = true := by
    decide +kernel
  obtain ⟨start, formatted, rest⟩ := exists_of_endsIn evaluated
  obtain ⟨s, ran, facts⟩ := exists_of_endsIn rest
  rw [decide_eq_true_eq] at facts
  exact ⟨start, s, formatted, ran, facts.1, facts.2, (tree_consistent _ _ start formatted deepCalls s ran).1⟩

end RecoverOs.Fs
