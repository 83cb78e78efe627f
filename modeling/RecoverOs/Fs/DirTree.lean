import RecoverOs.Fs.Resolve
import RecoverOs.Logic.Rooted
import Mathlib.Data.List.Perm.Lattice

namespace RecoverOs.Fs

open Relation Rooted

def dot : List UInt8 := [46]
def ddot : List UInt8 := [46, 46]

theorem dot_name : FileName dot := ⟨by decide, by decide⟩

theorem ddot_name : FileName ddot := ⟨by decide, by decide⟩

theorem dot_ne_ddot : dot ≠ ddot := by decide

def Entry.Plain (entry : Entry) : Prop := entry.name ≠ dot ∧ entry.name ≠ ddot

instance (entry : Entry) : Decidable entry.Plain := inferInstanceAs (Decidable (_ ∧ _))

variable {tree tree' : Tree} {used : Nat → Prop} {d i : Nat} {entries : List Entry} {entry : Entry}

structure Names (tree : Tree) (d : Nat) (entry : Entry) : Prop where
  listed : ∃ entries, tree d = some entries ∧ entry ∈ entries
  plain : entry.Plain
  isNode : entry.fType ≠ .chr

def Child (tree : Tree) (d i : Nat) : Prop := ∃ entry, Names tree d entry ∧ entry.iNo = i

def Typed (tree : Tree) (entry : Entry) : Prop :=
  entry.fType = .dir ∧ (tree entry.iNo).isSome ∨ entry.fType = .reg ∧ tree entry.iNo = none

structure Consistent (tree : Tree) (used : Nat → Prop) : Prop where
  root : (tree 0).isSome
  dirs : ∀ d entries, tree d = some entries → used d
  distinct : ∀ d entries, tree d = some entries → (entries.map Entry.name).Nodup
  self : ∀ d entries, tree d = some entries → ⟨dot, d, .dir⟩ ∈ entries
  parent : ∀ d entries, tree d = some entries →
    ∃ up, ⟨ddot, up, .dir⟩ ∈ entries ∧ if d = 0 then up = 0 else Child tree up d
  typed : ∀ d entry, Names tree d entry → entry.iNo ≠ 0 ∧ Typed tree entry
  once : ∀ d d' entry entry', Names tree d entry → Names tree d' entry' → entry.iNo = entry'.iNo → d = d' ∧ entry = entry'
  reached : ∀ i, used i ↔ ReflTransGen (Child tree) 0 i

theorem Consistent.same_entry (consistent : Consistent tree used) (found : tree d = some entries) {other : Entry}
    (member : entry ∈ entries) (member' : other ∈ entries) (named : entry.name = other.name) : entry = other :=
  List.inj_on_of_nodup_map (consistent.distinct d entries found) member member' named

theorem Consistent.dir_entry (consistent : Consistent tree used) (found : tree d = some entries) (member : entry ∈ entries)
    (isDir : entry.fType = .dir) : (tree entry.iNo).isSome := by
  by_cases isDot : entry.name = dot
  · rw [consistent.same_entry found member (consistent.self d entries found) isDot, found]
    rfl
  by_cases isDdot : entry.name = ddot
  · obtain ⟨up, above, isParent⟩ := consistent.parent d entries found
    rw [consistent.same_entry found member above isDdot]
    by_cases isRoot : d = 0
    · rw [if_pos isRoot] at isParent
      rw [isParent]
      exact consistent.root
    · rw [if_neg isRoot] at isParent
      obtain ⟨_, ⟨⟨siblings, listed, _⟩, _, _⟩, _⟩ := isParent
      show (tree up).isSome = true
      rw [listed]
      rfl
  · have names : Names tree d entry := ⟨⟨entries, found, member⟩, ⟨isDot, isDdot⟩, by simp [isDir]⟩
    rcases (consistent.typed d entry names).2 with ⟨_, some⟩ | ⟨isReg, _⟩
    · exact some
    · simp [isDir] at isReg

theorem Consistent.dots_dir (consistent : Consistent tree used) (found : tree d = some entries) (member : entry ∈ entries)
    (dots : ¬ entry.Plain) : entry.fType = .dir := by
  rw [Entry.Plain, not_and_or, not_not, not_not] at dots
  rcases dots with isDot | isDdot
  · rw [consistent.same_entry found member (consistent.self d entries found) isDot]
  · obtain ⟨up, above, _⟩ := consistent.parent d entries found
    rw [consistent.same_entry found member above isDdot]

theorem Consistent.used_entry (consistent : Consistent tree used) (names : Names tree d entry) : used entry.iNo := by
  obtain ⟨entries, found, _⟩ := names.listed
  have above := (consistent.reached d).mp (consistent.dirs d entries found)
  exact (consistent.reached _).mpr (above.tail ⟨entry, names, rfl⟩)

theorem Consistent.unused_dir (consistent : Consistent tree used) (unused : ¬ used i) : tree i = none := by
  cases found : tree i with
  | none => rfl
  | some entries => exact absurd (consistent.dirs i entries found) unused

theorem Consistent.unused_ne (consistent : Consistent tree used) (unused : ¬ used i) (found : tree d = some entries) :
    i ≠ d := by
  intro same
  rw [consistent.unused_dir (same ▸ unused : ¬ used d)] at found
  cases found

def newDir (d i : Nat) : List Entry := [⟨dot, i, .dir⟩, ⟨ddot, d, .dir⟩]

def Tree.add (tree : Tree) (d : Nat) (entries : List Entry) (entry : Entry) (sub : Option (List Entry)) : Tree :=
  Function.update (Function.update tree entry.iNo sub) d (some (entries ++ [entry]))

section

variable {sub : Option (List Entry)}

theorem Tree.add_here : tree.add d entries entry sub d = some (entries ++ [entry]) := by
  simp [Tree.add]

theorem Tree.add_new (apart : entry.iNo ≠ d) : tree.add d entries entry sub entry.iNo = sub := by
  simp [Tree.add, Function.update_of_ne apart]

theorem Tree.add_other {e : Nat} (apart : e ≠ d) (old : e ≠ entry.iNo) : tree.add d entries entry sub e = tree e := by
  simp [Tree.add, Function.update_of_ne apart, Function.update_of_ne old]

inductive Fresh (d : Nat) (entry : Entry) : Option (List Entry) → Prop
  | file (isReg : entry.fType = .reg) : Fresh d entry none
  | directory (isDir : entry.fType = .dir) : Fresh d entry (some (newDir d entry.iNo))

theorem Fresh.isNode (fresh : Fresh d entry sub) : entry.fType ≠ .chr := by
  cases fresh with
  | file isReg => simp [isReg]
  | directory isDir => simp [isDir]

theorem Fresh.no_plain (fresh : Fresh d entry sub) {siblings : List Entry} {other : Entry} (found : sub = some siblings)
    (member : other ∈ siblings) : ¬ other.Plain := by
  cases fresh with
  | file => cases found
  | directory =>
    cases found
    simp only [newDir, List.mem_cons, List.not_mem_nil, or_false] at member
    rcases member with rfl | rfl
    · exact fun plain => plain.1 rfl
    · exact fun plain => plain.2 rfl

theorem names_add (found : tree d = some entries) (plain : entry.Plain) (fresh : Fresh d entry sub)
    (new : tree entry.iNo = none) (e : Nat) (other : Entry) :
    Names (tree.add d entries entry sub) e other ↔ Names tree e other ∨ e = d ∧ other = entry := by
  have apart : entry.iNo ≠ d := by
    intro same
    rw [same, found] at new
    cases new
  by_cases here : e = d
  · subst here
    constructor
    · rintro ⟨⟨siblings, listed, member⟩, plain', isNode⟩
      rw [Tree.add_here] at listed
      cases listed
      rcases List.mem_append.mp member with old | last
      · exact .inl ⟨⟨entries, found, old⟩, plain', isNode⟩
      · exact .inr ⟨rfl, List.mem_singleton.mp last⟩
    · rintro (⟨⟨siblings, listed, member⟩, plain', isNode⟩ | ⟨_, rfl⟩)
      · rw [found] at listed
        cases listed
        exact ⟨⟨_, Tree.add_here, List.mem_append_left _ member⟩, plain', isNode⟩
      · exact ⟨⟨_, Tree.add_here, by simp⟩, plain, fresh.isNode⟩
  · by_cases below : e = entry.iNo
    · subst below
      constructor
      · rintro ⟨⟨siblings, listed, member⟩, plain', _⟩
        rw [Tree.add_new apart] at listed
        exact absurd plain' (fresh.no_plain listed member)
      · rintro (⟨⟨siblings, listed, _⟩, _, _⟩ | ⟨same, _⟩)
        · rw [new] at listed
          cases listed
        · exact absurd same apart
    · constructor
      · rintro ⟨listed, plain', isNode⟩
        rw [Tree.add_other here below] at listed
        exact .inl ⟨listed, plain', isNode⟩
      · rintro (⟨listed, plain', isNode⟩ | ⟨same, _⟩)
        · refine ⟨?_, plain', isNode⟩
          rw [Tree.add_other here below]
          exact listed
        · exact absurd same here

theorem child_add (found : tree d = some entries) (plain : entry.Plain) (fresh : Fresh d entry sub)
    (new : tree entry.iNo = none) (a b : Nat) :
    Child (tree.add d entries entry sub) a b ↔ Child tree a b ∨ a = d ∧ b = entry.iNo := by
  constructor
  · rintro ⟨other, names, rfl⟩
    rcases (names_add found plain fresh new a other).mp names with old | ⟨here, rfl⟩
    · exact .inl ⟨other, old, rfl⟩
    · exact .inr ⟨here, rfl⟩
  · rintro (⟨other, names, rfl⟩ | ⟨rfl, rfl⟩)
    · exact ⟨other, (names_add found plain fresh new a other).mpr (.inl names), rfl⟩
    · exact ⟨entry, (names_add found plain fresh new a entry).mpr (.inr ⟨rfl, rfl⟩), rfl⟩

theorem add_cases {e : Nat} {siblings : List Entry} (apart : entry.iNo ≠ d)
    (listed : tree.add d entries entry sub e = some siblings) :
    e = d ∧ siblings = entries ++ [entry] ∨ e = entry.iNo ∧ sub = some siblings ∨
      e ≠ d ∧ e ≠ entry.iNo ∧ tree e = some siblings := by
  by_cases here : e = d
  · rw [here, Tree.add_here] at listed
    cases listed
    exact .inl ⟨here, rfl⟩
  · by_cases below : e = entry.iNo
    · rw [below, Tree.add_new apart] at listed
      exact .inr (.inl ⟨below, listed⟩)
    · rw [Tree.add_other here below] at listed
      exact .inr (.inr ⟨here, below, listed⟩)

theorem Typed.add {other : Entry} (typed : Typed tree other) (found : tree d = some entries)
    (apart : other.iNo ≠ entry.iNo) : Typed (tree.add d entries entry sub) other := by
  by_cases here : other.iNo = d
  · rcases typed with ⟨isDir, _⟩ | ⟨_, none⟩
    · left
      rw [here, Tree.add_here]
      exact ⟨isDir, rfl⟩
    · rw [here, found] at none
      cases none
  · rw [Typed, Tree.add_other here apart]
    exact typed

theorem Consistent.add (consistent : Consistent tree used) (found : tree d = some entries) (plain : entry.Plain)
    (fresh : Fresh d entry sub) (absent : ∀ other ∈ entries, other.name ≠ entry.name) (unused : ¬ used entry.iNo) :
    Consistent (tree.add d entries entry sub) fun i => used i ∨ i = entry.iNo := by
  have new := consistent.unused_dir unused
  have apart := consistent.unused_ne unused found
  have isNode := fresh.isNode
  have childOf := child_add found plain fresh new
  have usedDir := consistent.dirs d entries found
  have parentKept : ∀ e up, (if e = 0 then up = 0 else Child tree up e) →
      if e = 0 then up = 0 else Child (tree.add d entries entry sub) up e := by
    intro e up isParent
    by_cases isRoot : e = 0
    · rw [if_pos isRoot] at isParent ⊢
      exact isParent
    · rw [if_neg isRoot] at isParent ⊢
      exact (childOf up e).mpr (.inl isParent)
  have notZero : entry.iNo ≠ 0 := by
    intro zero
    obtain ⟨top, listed⟩ := Option.isSome_iff_exists.mp consistent.root
    exact consistent.unused_ne unused listed zero
  constructor
  case root =>
    by_cases here : 0 = d
    · rw [here, Tree.add_here]
      rfl
    · rw [Tree.add_other here notZero.symm]
      exact consistent.root
  case dirs =>
    intro e siblings listed
    rcases add_cases apart listed with ⟨rfl, _⟩ | ⟨here, _⟩ | ⟨_, _, old⟩
    · exact .inl usedDir
    · exact .inr here
    · exact .inl (consistent.dirs e siblings old)
  case distinct =>
    intro e siblings listed
    rcases add_cases apart listed with ⟨_, rfl⟩ | ⟨_, newly⟩ | ⟨_, _, old⟩
    · exact Catalog.nodup_concat (consistent.distinct d entries found) absent
    · cases fresh with
      | file => cases newly
      | directory =>
        cases newly
        simp [newDir, dot, ddot]
    · exact consistent.distinct e siblings old
  case self =>
    intro e siblings listed
    rcases add_cases apart listed with ⟨rfl, rfl⟩ | ⟨rfl, newly⟩ | ⟨_, _, old⟩
    · exact List.mem_append_left _ (consistent.self _ entries found)
    · cases fresh with
      | file => cases newly
      | directory =>
        cases newly
        exact List.mem_cons_self ..
    · exact consistent.self e siblings old
  case parent =>
    intro e siblings listed
    rcases add_cases apart listed with ⟨rfl, rfl⟩ | ⟨rfl, newly⟩ | ⟨_, _, old⟩
    · obtain ⟨up, member, isParent⟩ := consistent.parent _ entries found
      exact ⟨up, List.mem_append_left _ member, parentKept _ up isParent⟩
    · cases fresh with
      | file => cases newly
      | directory =>
        cases newly
        refine ⟨d, by simp [newDir], ?_⟩
        rw [if_neg notZero]
        exact (childOf d entry.iNo).mpr (.inr ⟨rfl, rfl⟩)
    · obtain ⟨up, member, isParent⟩ := consistent.parent e siblings old
      exact ⟨up, member, parentKept e up isParent⟩
  case typed =>
    intro e other names
    rcases (names_add found plain fresh new e other).mp names with old | ⟨_, rfl⟩
    · obtain ⟨positive, typed⟩ := consistent.typed e other old
      refine ⟨positive, typed.add found ?_⟩
      intro same
      exact unused (same ▸ consistent.used_entry old)
    · refine ⟨notZero, ?_⟩
      rw [Typed, Tree.add_new apart]
      cases fresh with
      | file isReg => exact .inr ⟨isReg, rfl⟩
      | directory isDir => exact .inl ⟨isDir, rfl⟩
  case once =>
    intro e e' other other' names names' same
    rcases (names_add found plain fresh new e other).mp names with old | ⟨rfl, rfl⟩
    · rcases (names_add found plain fresh new e' other').mp names' with old' | ⟨rfl, rfl⟩
      · exact consistent.once e e' other other' old old' same
      · exact absurd (same ▸ consistent.used_entry old) unused
    · rcases (names_add found plain fresh new e' other').mp names' with old' | ⟨rfl, rfl⟩
      · exact absurd (same ▸ consistent.used_entry old') unused
      · exact ⟨rfl, rfl⟩
  case reached =>
    intro j
    rw [consistent.reached j]
    refine (reached_insert childOf ((consistent.reached d).mp usedDir) ?_).symm
    rintro b ⟨other, ⟨⟨siblings, listed, _⟩, _, _⟩, _⟩
    rw [new] at listed
    cases listed

end

/-- Directory `d` keeps the entries `rest`, and inode `i` is no directory any more. -/
def Tree.remove (tree : Tree) (d : Nat) (rest : List Entry) (i : Nat) : Tree :=
  Function.update (Function.update tree i none) d (some rest)

section

variable {rest : List Entry}

theorem Tree.remove_here : tree.remove d rest i d = some rest := by
  simp [Tree.remove]

theorem Tree.remove_gone (apart : i ≠ d) : tree.remove d rest i i = none := by
  simp [Tree.remove, Function.update_of_ne apart]

theorem Tree.remove_other {e : Nat} (apart : e ≠ d) (other : e ≠ i) : tree.remove d rest i e = tree e := by
  simp [Tree.remove, Function.update_of_ne apart, Function.update_of_ne other]

theorem remove_cases {e : Nat} {siblings : List Entry} (apart : i ≠ d)
    (listed : tree.remove d rest i e = some siblings) :
    e ≠ i ∧ (e = d ∧ siblings = rest ∨ e ≠ d ∧ tree e = some siblings) := by
  by_cases here : e = d
  · rw [here, Tree.remove_here] at listed
    cases listed
    exact ⟨here ▸ apart.symm, .inl ⟨here, rfl⟩⟩
  · by_cases gone : e = i
    · rw [gone, Tree.remove_gone apart] at listed
      cases listed
    · rw [Tree.remove_other here gone] at listed
      exact ⟨gone, .inr ⟨here, listed⟩⟩

def Tree.Empty (tree : Tree) (i : Nat) : Prop := ∀ entries, tree i = some entries → ∀ entry ∈ entries, ¬ entry.Plain

variable (consistent : Consistent tree used) (found : tree d = some entries) (split : entries.Perm (entry :: rest))
  (plain : entry.Plain) (isNode : entry.fType ≠ .chr) (empty : tree.Empty entry.iNo)

include consistent found split plain isNode empty

theorem names_removed : Names tree d entry ∧ entry.iNo ≠ d ∧ entry ∉ rest := by
  have member : entry ∈ entries := split.mem_iff.mpr (List.mem_cons_self ..)
  refine ⟨⟨⟨entries, found, member⟩, plain, isNode⟩, ?_, ?_⟩
  · intro same
    exact empty entries (same ▸ found) entry member plain
  · have distinct := consistent.distinct d entries found
    rw [(split.map Entry.name).nodup_iff, List.map_cons, List.nodup_cons] at distinct
    exact fun again => distinct.1 (List.mem_map_of_mem again)

theorem names_remove (e : Nat) (other : Entry) :
    Names (tree.remove d rest entry.iNo) e other ↔ Names tree e other ∧ other.iNo ≠ entry.iNo := by
  obtain ⟨removed, apart, goneEntry⟩ := names_removed consistent found split plain isNode empty
  constructor
  · rintro ⟨⟨siblings, listed, member⟩, plain', isNode'⟩
    obtain ⟨_, here | old⟩ := remove_cases apart listed
    · obtain ⟨rfl, rfl⟩ := here
      have names : Names tree e other := ⟨⟨entries, found, split.mem_iff.mpr (List.mem_cons_of_mem _ member)⟩, plain', isNode'⟩
      refine ⟨names, ?_⟩
      intro same
      obtain ⟨_, rfl⟩ := consistent.once e e other entry names removed same
      exact goneEntry member
    · have names : Names tree e other := ⟨⟨siblings, old.2, member⟩, plain', isNode'⟩
      refine ⟨names, ?_⟩
      intro same
      exact old.1 (consistent.once e d other entry names removed same).1
  · rintro ⟨⟨⟨siblings, listed, member⟩, plain', isNode'⟩, differs⟩
    by_cases here : e = d
    · subst here
      rw [found] at listed
      cases listed
      refine ⟨⟨rest, Tree.remove_here, ?_⟩, plain', isNode'⟩
      rcases List.mem_cons.mp (split.mem_iff.mp member) with rfl | kept
      · exact absurd rfl differs
      · exact kept
    · by_cases gone : e = entry.iNo
      · exact absurd plain' (empty siblings (gone ▸ listed) other member)
      · refine ⟨⟨siblings, ?_, member⟩, plain', isNode'⟩
        rw [Tree.remove_other here gone]
        exact listed

theorem child_remove (a b : Nat) :
    Child (tree.remove d rest entry.iNo) a b ↔ Child tree a b ∧ b ≠ entry.iNo := by
  have names := names_remove consistent found split plain isNode empty
  constructor
  · rintro ⟨other, named, rfl⟩
    obtain ⟨old, differs⟩ := (names a other).mp named
    exact ⟨⟨other, old, rfl⟩, differs⟩
  · rintro ⟨⟨other, old, rfl⟩, differs⟩
    exact ⟨other, (names a other).mpr ⟨old, differs⟩, rfl⟩

theorem Consistent.remove : Consistent (tree.remove d rest entry.iNo) fun i => used i ∧ i ≠ entry.iNo := by
  obtain ⟨removed, apart, _⟩ := names_removed consistent found split plain isNode empty
  have names := names_remove consistent found split plain isNode empty
  have childOf := child_remove consistent found split plain isNode empty
  have notZero := (consistent.typed d entry removed).1
  have kept : ∀ other ∈ entries, other ≠ entry → other ∈ rest := by
    intro other member differs
    exact (List.mem_cons.mp (split.mem_iff.mp member)).resolve_left differs
  have parentKept : ∀ e up, e ≠ entry.iNo → (if e = 0 then up = 0 else Child tree up e) →
      if e = 0 then up = 0 else Child (tree.remove d rest entry.iNo) up e := by
    intro e up stays isParent
    by_cases isRoot : e = 0
    · rw [if_pos isRoot] at isParent ⊢
      exact isParent
    · rw [if_neg isRoot] at isParent ⊢
      exact (childOf up e).mpr ⟨isParent, stays⟩
  constructor
  case root =>
    by_cases here : 0 = d
    · rw [here, Tree.remove_here]
      rfl
    · rw [Tree.remove_other here notZero.symm]
      exact consistent.root
  case dirs =>
    intro e siblings listed
    obtain ⟨stays, ⟨rfl, _⟩ | ⟨_, old⟩⟩ := remove_cases apart listed
    · exact ⟨consistent.dirs _ entries found, stays⟩
    · exact ⟨consistent.dirs e siblings old, stays⟩
  case distinct =>
    intro e siblings listed
    obtain ⟨_, ⟨_, rfl⟩ | ⟨_, old⟩⟩ := remove_cases apart listed
    · exact Catalog.nodup_remove (consistent.distinct d entries found) split
    · exact consistent.distinct e siblings old
  case self =>
    intro e siblings listed
    obtain ⟨_, ⟨rfl, rfl⟩ | ⟨_, old⟩⟩ := remove_cases apart listed
    · exact kept _ (consistent.self _ entries found) fun same => plain.1 (by rw [← same])
    · exact consistent.self e siblings old
  case parent =>
    intro e siblings listed
    obtain ⟨stays, ⟨rfl, rfl⟩ | ⟨_, old⟩⟩ := remove_cases apart listed
    · obtain ⟨up, member, isParent⟩ := consistent.parent _ entries found
      exact ⟨up, kept _ member fun same => plain.2 (by rw [← same]), parentKept _ up stays isParent⟩
    · obtain ⟨up, member, isParent⟩ := consistent.parent e siblings old
      exact ⟨up, member, parentKept e up stays isParent⟩
  case typed =>
    intro e other named
    obtain ⟨old, differs⟩ := (names e other).mp named
    obtain ⟨positive, typed⟩ := consistent.typed e other old
    refine ⟨positive, ?_⟩
    by_cases here : other.iNo = d
    · rcases typed with ⟨isDir, _⟩ | ⟨_, none⟩
      · left
        rw [here, Tree.remove_here]
        exact ⟨isDir, rfl⟩
      · rw [here, found] at none
        cases none
    · rw [Typed, Tree.remove_other here differs]
      exact typed
  case once =>
    intro e e' other other' named named' same
    exact consistent.once e e' other other' ((names e other).mp named).1 ((names e' other').mp named').1 same
  case reached =>
    intro j
    rw [consistent.reached j]
    refine (reached_remove childOf ?_ notZero.symm).symm
    rintro b ⟨other, ⟨⟨siblings, listed, member⟩, plain', _⟩, _⟩
    exact empty siblings listed other member plain'

end

section

variable (found : tree d = some entries) (isDevice : entry.fType = .chr)

include found isDevice

theorem names_device (e : Nat) (other : Entry) :
    Names (Function.update tree d (some (entries ++ [entry]))) e other ↔ Names tree e other := by
  by_cases here : e = d
  · subst here
    constructor
    · rintro ⟨⟨siblings, listed, member⟩, plain, isNode⟩
      rw [Function.update_self] at listed
      cases listed
      rcases List.mem_append.mp member with old | last
      · exact ⟨⟨entries, found, old⟩, plain, isNode⟩
      · rw [List.mem_singleton.mp last] at isNode
        exact absurd isDevice isNode
    · rintro ⟨⟨siblings, listed, member⟩, plain, isNode⟩
      rw [found] at listed
      cases listed
      exact ⟨⟨_, Function.update_self .., List.mem_append_left _ member⟩, plain, isNode⟩
  · constructor
    · rintro ⟨listed, plain, isNode⟩
      rw [Function.update_of_ne here] at listed
      exact ⟨listed, plain, isNode⟩
    · rintro ⟨listed, plain, isNode⟩
      refine ⟨?_, plain, isNode⟩
      rw [Function.update_of_ne here]
      exact listed

theorem child_device : Child (Function.update tree d (some (entries ++ [entry]))) = Child tree := by
  funext a b
  apply propext
  constructor
  · rintro ⟨other, names, same⟩
    exact ⟨other, (names_device found isDevice a other).mp names, same⟩
  · rintro ⟨other, names, same⟩
    exact ⟨other, (names_device found isDevice a other).mpr names, same⟩

theorem Consistent.addDevice (consistent : Consistent tree used)
    (absent : ∀ other ∈ entries, other.name ≠ entry.name) :
    Consistent (Function.update tree d (some (entries ++ [entry]))) used := by
  have cases' : ∀ e siblings, Function.update tree d (some (entries ++ [entry])) e = some siblings →
      e = d ∧ siblings = entries ++ [entry] ∨ tree e = some siblings := by
    intro e siblings listed
    by_cases here : e = d
    · rw [here, Function.update_self] at listed
      cases listed
      exact .inl ⟨here, rfl⟩
    · rw [Function.update_of_ne here] at listed
      exact .inr listed
  have isSome : ∀ e, (Function.update tree d (some (entries ++ [entry])) e).isSome = (tree e).isSome := by
    intro e
    by_cases here : e = d
    · rw [here, Function.update_self, found]
      rfl
    · rw [Function.update_of_ne here]
  constructor
  case root =>
    rw [isSome]
    exact consistent.root
  case dirs =>
    intro e siblings listed
    rcases cases' e siblings listed with ⟨rfl, _⟩ | old
    · exact consistent.dirs _ entries found
    · exact consistent.dirs e siblings old
  case distinct =>
    intro e siblings listed
    rcases cases' e siblings listed with ⟨_, rfl⟩ | old
    · exact Catalog.nodup_concat (consistent.distinct d entries found) absent
    · exact consistent.distinct e siblings old
  case self =>
    intro e siblings listed
    rcases cases' e siblings listed with ⟨rfl, rfl⟩ | old
    · exact List.mem_append_left _ (consistent.self _ entries found)
    · exact consistent.self e siblings old
  case parent =>
    intro e siblings listed
    rw [child_device found isDevice]
    rcases cases' e siblings listed with ⟨rfl, rfl⟩ | old
    · obtain ⟨up, member, isParent⟩ := consistent.parent _ entries found
      exact ⟨up, List.mem_append_left _ member, isParent⟩
    · exact consistent.parent e siblings old
  case typed =>
    intro e other names
    obtain ⟨positive, typed⟩ := consistent.typed e other ((names_device found isDevice e other).mp names)
    refine ⟨positive, ?_⟩
    rcases typed with ⟨isDir, some⟩ | ⟨isReg, none⟩
    · exact .inl ⟨isDir, (isSome _).trans some⟩
    · refine .inr ⟨isReg, ?_⟩
      rw [← Option.not_isSome_iff_eq_none, isSome, none]
      exact Bool.false_ne_true
  case once =>
    intro e e' other other' names names' same
    exact consistent.once e e' other other' ((names_device found isDevice e other).mp names)
      ((names_device found isDevice e' other').mp names') same
  case reached =>
    rw [child_device found isDevice]
    exact consistent.reached

end

theorem Leads.mono {parents : List (List UInt8)} {target : Nat} (leads : Leads tree d parents target)
    (more : ∀ e entries, tree e = some entries → ∃ entries', tree' e = some entries' ∧ ∀ entry ∈ entries, entry ∈ entries') :
    Leads tree' d parents target := by
  induction leads with
  | here d => exact .here d
  | down listed member isDir _ ih =>
    obtain ⟨entries', listed', kept⟩ := more _ _ listed
    exact .down listed' (kept _ member) isDir ih

theorem Leads.isDir {parents : List (List UInt8)} {target : Nat} (leads : Leads tree d parents target)
    (consistent : Consistent tree used) (start : (tree d).isSome) : (tree target).isSome := by
  induction leads with
  | here d => exact start
  | down listed member isDir _ ih => exact ih (consistent.dir_entry listed member isDir)

end RecoverOs.Fs
