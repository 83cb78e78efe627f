import RecoverOs.Fs.Directory
import RecoverOs.Fs.FileData

namespace RecoverOs.Fs

open Bytes Transition Catalog

variable {base : Nat} {created : Nat → Prop} {s after : State} {p : Ptr} {dNo : Nat} {entries : List Entry}

theorem cname_nonzero (left : Nat) (buf : Buffer) : 0 ∉ cname left buf := by
  induction left generalizing buf with
  | zero => exact List.not_mem_nil
  | succ left ih =>
    rw [cname]
    split
    · exact List.not_mem_nil
    · rename_i positive
      intro inside
      rcases List.mem_cons.mp inside with here | later
      · exact positive here.symm
      · exact ih _ later

theorem spells_cname {left : Nat} {buf : Buffer} (ends : (cname left buf).length < left) : Spells buf (cname left buf) := by
  induction left generalizing buf with
  | zero => cases ends
  | succ left ih =>
    by_cases zero : buf 0 = 0
    · rw [cname, if_pos zero]
      intro i bound
      have first : i = 0 := Nat.le_zero.mp bound
      rw [first, zero]
      rfl
    · rw [cname, if_neg zero] at ends ⊢
      rw [List.length_cons] at ends
      have rest := ih (Nat.lt_of_succ_lt_succ ends)
      intro i bound
      cases i with
      | zero => rfl
      | succ i =>
        rw [List.length_cons] at bound
        exact rest i (Nat.le_of_succ_le_succ bound)

def ShortName (buf : Buffer) : Prop := (cname nameBytes buf).length < maxFileNameLen

theorem ShortName.spells {buf : Buffer} (short : ShortName buf) : Spells buf (cname nameBytes buf) := by
  apply spells_cname
  simp only [ShortName, maxFileNameLen] at short
  simp only [nameBytes, direntSize] at short ⊢
  omega

theorem ShortName.fileName {buf : Buffer} (short : ShortName buf) : FileName (cname nameBytes buf) :=
  ⟨short, cname_nonzero _ _⟩

theorem lists_dirEntries (whole : direntSize ∣ fileSize s dNo)
    (short : ∀ entry ∈ dirEntries s dNo, entry.name.length < maxFileNameLen) : Lists s dNo (dirEntries s dNo) where
  size := by
    rw [dirEntries, List.length_map, List.length_range]
    exact (Nat.div_mul_cancel whole).symm
  entry := by
    intro k entry found
    have inside : ShortName (Dirent.load fun i => content s dNo (k * direntSize + i)).filename := by
      have member := short entry (List.mem_of_getElem? found)
      rw [dirEntries, List.getElem?_map, Option.map_eq_some_iff] at found
      obtain ⟨j, at', rfl⟩ := found
      obtain ⟨_, rfl⟩ := List.getElem?_eq_some_iff.mp at'
      simpa [ShortName, Dirent.entry] using member
    rw [dirEntries, List.getElem?_map, Option.map_eq_some_iff] at found
    obtain ⟨j, at', rfl⟩ := found
    obtain ⟨_, rfl⟩ := List.getElem?_eq_some_iff.mp at'
    rw [List.getElem_range]
    exact ⟨rfl, inside.spells, rfl⟩
  name := by
    intro entry member
    refine ⟨short entry member, ?_⟩
    obtain ⟨k, _, rfl⟩ := List.mem_map.mp member
    exact cname_nonzero _ _

inductive DirOp where
  | add (de : Dirent)
  | delete (name : Buffer)

/-- The name ends inside its field, and the type is an `enum file_types`. -/
def DirOp.Valid : DirOp → Prop
  | .add de => ShortName de.filename ∧ de.iNo < 2 ^ 64 ∧ ∀ code, de.fType ≠ .other code
  | .delete name => ShortName name

def dirStep (p : Ptr) (s : State) : DirOp → Except Halt (Int × State)
  | .add de => direntAdd s p de
  | .delete name => direntDelete s p name

def dirRun (p : Ptr) : State → List DirOp → Except Halt (List Int × State)
  | s, [] => .ok ([], s)
  | s, op :: ops => do
    let (result, s) ← dirStep p s op
    let (results, s) ← dirRun p s ops
    return (result :: results, s)

abbrev DirMap := List UInt8 → Option (Nat × FileType)

def dirMap (s : State) (dNo : Nat) : DirMap := fun name =>
  ((dirEntries s dNo).find? fun entry => entry.name = name).map fun entry => (entry.iNo, entry.fType)

def mapStep (m : DirMap) : DirOp → Int × DirMap
  | .add de =>
    if (m de.entry.name).isSome then (-direntAlreadyExist, m)
    else (direntSize, Function.update m de.entry.name (some (de.entry.iNo, de.entry.fType)))
  | .delete name =>
    if (m (cname nameBytes name)).isNone then (-direntIsntExist, m)
    else (0, Function.update m (cname nameBytes name) none)

def mapRun : DirMap → List DirOp → List Int × DirMap
  | m, [] => ([], m)
  | m, op :: ops => ((mapStep m op).1 :: (mapRun (mapStep m op).2 ops).1, (mapRun (mapStep m op).2 ops).2)

def Room (dNo : Nat) (s : State) : DirOp → Prop
  | .add de => (∀ entry ∈ dirEntries s dNo, entry.name ≠ de.entry.name) → Accepts s dNo
  | .delete _ => True

instance (dNo : Nat) (s : State) (op : DirOp) : Decidable (Room dNo s op) :=
  match op with
  | .add de => inferInstanceAs (Decidable ((∀ entry ∈ dirEntries s dNo, entry.name ≠ de.entry.name) → Accepts s dNo))
  | .delete _ => .isTrue True.intro

def dirNext (p : Ptr) (s : State) (op : DirOp) : Except Halt State := do
  let (_, s) ← dirStep p s op
  return s

structure Stands (base : Nat) (created : Nat → Prop) (p : Ptr) (dNo : Nat) (entries : List Entry) (m : DirMap) (s : State) :
    Prop where
  own : OwnInv base created s
  isOpen : IsOpen s p dNo
  lists : Lists s dNo entries
  distinct : (entries.map Entry.name).Nodup
  represents : Represents Entry.name (fun entry => (entry.iNo, entry.fType)) entries m

/-- One call does to the directory what it does to the map. -/
theorem dirStep_refines {m : DirMap} {op : DirOp} (stands : Stands base created p dNo entries m s) (valid : op.Valid)
    (room : Room dNo s op) : ∃ after entries', dirStep p s op = .ok ((mapStep m op).1, after) ∧
      Stands base created p dNo entries' (mapStep m op).2 after := by
  cases op with
  | add de =>
    obtain ⟨short, number, known⟩ := valid
    have is : de.Is de.entry := ⟨rfl, short.spells, rfl⟩
    by_cases present : ∃ other ∈ entries, other.name = de.entry.name
    · have found : (m de.entry.name).isSome := by
        obtain ⟨other, member, named⟩ := present
        rw [(stands.represents _ _).mpr ⟨other, member, named, rfl⟩]
        rfl
      refine ⟨s, entries, ?_, ?_⟩
      · rw [mapStep, if_pos found]
        exact direntAdd_present stands.lists.rows stands.own stands.isOpen is short.fileName.entryName present
      · rw [mapStep, if_pos found]
        exact stands
    · have absent : ∀ other ∈ entries, other.name ≠ de.entry.name :=
        fun other member named => present ⟨other, member, named⟩
      have missing : m de.entry.name = none := stands.represents.none_iff.mpr absent
      have accepts := room (by rw [stands.lists.dirEntries_eq]; exact absent)
      rcases direntAdd_outcome stands.lists stands.own stands.isOpen is short.fileName number known absent with
        ⟨_, after, ran, updated, lists⟩ | ⟨refused, _⟩
      swap
      · exact absurd accepts refused
      refine ⟨after, entries ++ [de.entry], ?_, ?_⟩
      · rw [mapStep, if_neg (by simp [missing])]
        exact ran
      · rw [mapStep, if_neg (by simp [missing])]
        exact ⟨updated.own, stands.isOpen.same updated.steady.toSameCache, lists, nodup_concat stands.distinct absent,
          stands.represents.concat absent⟩
  | delete name =>
    have short : ShortName name := valid
    by_cases present : ∃ entry ∈ entries, entry.name = cname nameBytes name
    · have found : ¬ (m (cname nameBytes name)).isNone := by
        obtain ⟨other, member, named⟩ := present
        rw [(stands.represents _ _).mpr ⟨other, member, named, rfl⟩]
        exact Bool.false_ne_true
      obtain ⟨k, entry, after, at', named, ran, updated, rows, _⟩ :=
        direntDelete_spec stands.lists.rows stands.own stands.isOpen short.spells short.fileName.nonzero present
      have split := cons_removeAt at'
      refine ⟨after, removeAt entries k, ?_, ?_⟩
      · rw [mapStep, if_neg found]
        exact ran
      · rw [mapStep, if_neg found, ← named]
        exact ⟨updated.own, stands.isOpen.same updated.steady.toSameCache, stands.lists.removed at' rows,
          nodup_remove stands.distinct split, stands.represents.remove stands.distinct split⟩
    · have absent : ∀ entry ∈ entries, entry.name ≠ cname nameBytes name :=
        fun other member named => present ⟨other, member, named⟩
      have missing : (m (cname nameBytes name)).isNone := by
        rw [stands.represents.none_iff.mpr absent]
        rfl
      refine ⟨s, entries, ?_, ?_⟩
      · rw [mapStep, if_pos missing]
        exact direntDelete_absent stands.lists.rows stands.own stands.isOpen short.spells short.fileName.nonzero absent
      · rw [mapStep, if_pos missing]
        exact stands

theorem dirRun_refines {m : DirMap} {ops : List DirOp} (stands : Stands base created p dNo entries m s)
    (valid : ∀ op ∈ ops, op.Valid) (roomy : Meets (dirNext p) (Room dNo) s ops) : ∃ last entries',
      dirRun p s ops = .ok ((mapRun m ops).1, last) ∧ Stands base created p dNo entries' (mapRun m ops).2 last := by
  induction ops generalizing s m entries with
  | nil => exact ⟨s, entries, rfl, stands⟩
  | cons op ops ih =>
    obtain ⟨after, middle, step, next⟩ := dirStep_refines stands (valid op (List.mem_cons_self ..)) roomy.1
    obtain ⟨last, entries', rest, final⟩ := ih next (fun other member => valid other (List.mem_cons_of_mem op member))
      (roomy.2 after (by simp only [dirNext, step]; rfl))
    refine ⟨last, entries', ?_, final⟩
    simp only [dirRun, step, rest, Bind.bind, Except.bind, Pure.pure, Except.pure]
    rfl

/-- What a directory that refines a map looks like from outside. -/
structure Refines (p : Ptr) (dNo : Nat) (s : State) (m : DirMap) : Prop where
  stored : ∀ entry, entry ∈ dirEntries s dNo ↔ m entry.name = some (entry.iNo, entry.fType)
  distinct : ((dirEntries s dNo).map Entry.name).Nodup
  size : fileSize s dNo = direntSize * (dirEntries s dNo).length
  found : ∀ name, ShortName name → (m (cname nameBytes name)).isSome → ∃ (k : Nat) (entry : Entry),
    direntSearch s p name = .ok (k : Int) ∧ (dirEntries s dNo)[k]? = some entry ∧ entry.name = cname nameBytes name
  missing : ∀ name, ShortName name → m (cname nameBytes name) = none → direntSearch s p name = .ok (-direntIsntExist)

theorem Stands.refines {m : DirMap} (stands : Stands base created p dNo entries m s) : Refines p dNo s m := by
  have same := stands.lists.dirEntries_eq
  have search := fun name (short : ShortName name) =>
    direntSearch_spec stands.lists.rows stands.own stands.isOpen short.spells short.fileName.nonzero
  constructor
  case stored =>
    intro entry
    rw [same, stands.represents]
    constructor
    · intro member
      exact ⟨entry, member, rfl, rfl⟩
    · intro ⟨other, member, named, value⟩
      have equal : other = entry := by
        cases other
        cases entry
        simp only [Prod.mk.injEq] at named value
        rw [Entry.mk.injEq]
        exact ⟨named, value⟩
      exact equal ▸ member
  case distinct => rw [same]; exact stands.distinct
  case size => rw [same, stands.lists.size, Nat.mul_comm]
  case found =>
    intro name short has
    rcases search name short with ⟨k, entry, at', named, ran⟩ | ⟨absent, _⟩
    · exact ⟨k, entry, ran, same.symm ▸ at', named⟩
    · rw [stands.represents.none_iff.mpr absent] at has
      cases has
  case missing =>
    intro name short hasNot
    rcases search name short with ⟨k, entry, at', named, _⟩ | ⟨_, ran⟩
    · exact absurd named (stands.represents.none_iff.mp hasNot entry (List.mem_of_getElem? at'))
    · exact ran

/-- A directory refines a finite map under every sequence of `dirent_add` and `dirent_delete`. -/
theorem directory_refines_map (base : Nat) (created : Nat → Prop) (s : State) (p : Ptr) (dNo : Nat) (ops : List DirOp)
    (own : OwnInv base created s) (isOpen : IsOpen s p dNo) (whole : direntSize ∣ fileSize s dNo)
    (short : ∀ entry ∈ dirEntries s dNo, entry.name.length < maxFileNameLen)
    (distinct : ((dirEntries s dNo).map Entry.name).Nodup) (valid : ∀ op ∈ ops, op.Valid)
    (roomy : Meets (dirNext p) (Room dNo) s ops) :
    ∃ last, dirRun p s ops = .ok ((mapRun (dirMap s dNo) ops).1, last) ∧
      Refines p dNo last (mapRun (dirMap s dNo) ops).2 := by
  have stands : Stands base created p dNo (dirEntries s dNo) (dirMap s dNo) s :=
    ⟨own, isOpen, lists_dirEntries whole short, distinct, represents_find distinct⟩
  obtain ⟨last, _, ran, final⟩ := dirRun_refines stands valid roomy
  exact ⟨last, ran, final.refines⟩

def rootOps : List DirOp :=
  [.add ⟨5, cstr [97], .reg⟩, .add ⟨6, cstr [98], .dir⟩, .add ⟨7, cstr [97], .chr⟩, .delete (cstr [97]),
    .delete (cstr [99]), .delete (cstr [46, 46])]

theorem directory_refines_map_root : ∃ fs s last, format (fun _ _ => 7) ⟨64, 800⟩ = .ok fs ∧
    run Session.step (Session.start fs) [.inodeOpen 0] = .ok s ∧
    dirRun 1 s.fs rootOps = .ok ([32, 32, -4, 0, -3, 0], last) ∧ Refines 1 0 last (mapRun (dirMap s.fs 0) rootOps).2 := by
  have evaluated : endsIn (format (fun _ _ => 7) ⟨64, 800⟩) (fun fs =>
      endsIn (run Session.step (Session.start fs) [.inodeOpen 0])
        fun s => decide (s.fs.openInodes = [1] ∧ (s.fs.inode 1).iNo = 0 ∧ direntSize ∣ fileSize s.fs 0 ∧
          (∀ entry ∈ dirEntries s.fs 0, entry.name.length < maxFileNameLen) ∧
          ((dirEntries s.fs 0).map Entry.name).Nodup ∧ (mapRun (dirMap s.fs 0) rootOps).1 = [32, 32, -4, 0, -3, 0]) &&
          meetsCheck (dirNext 1) (Room 0) s.fs rootOps) = true := by
    decide +kernel
  obtain ⟨fs, formatted, rest⟩ := exists_of_endsIn evaluated
  obtain ⟨s, ran, facts⟩ := exists_of_endsIn rest
  rw [Bool.and_eq_true, decide_eq_true_eq] at facts
  obtain ⟨⟨opened, number, whole, short, distinct, results⟩, checked⟩ := facts
  have inv := run_invariant (fun s op after inv _ ran => session_step s op after inv ran)
    (format_start formatted) (meets_true Session.step (Session.start fs) _) ran
  have isOpen : IsOpen s.fs 1 0 := ⟨by rw [opened]; exact List.mem_singleton.mpr rfl, number⟩
  have valid : ∀ op ∈ rootOps, op.Valid := by
    intro op member
    simp only [rootOps, List.mem_cons, List.not_mem_nil, or_false] at member
    rcases member with rfl | rfl | rfl | rfl | rfl | rfl <;> simp [DirOp.Valid, ShortName] <;> decide
  obtain ⟨last, calls, refines⟩ := directory_refines_map _ _ s.fs 1 0 rootOps inv.own isOpen whole short distinct valid
    (meets_of_check checked)
  rw [results] at calls
  exact ⟨fs, s, last, formatted, ran, calls, refines⟩

end RecoverOs.Fs
