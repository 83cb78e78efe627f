import RecoverOs.Fs.Inode

namespace RecoverOs.Fs

open Bytes

def direntSize : Nat := 32
def maxFileNameLen : Nat := 16
def ulongMax : Nat := 0xffffffffffffffff

def direntIsntExist : Int := 3
def direntAlreadyExist : Int := 4
def fileIsntExist : Int := 5
def isntDir : Int := 6
def dirIsntEmpty : Int := 7
def fileTypeInvalid : Int := 9

/-- `other` stands for a number on the disk that is no `enum file_types`. -/
inductive FileType where
  | dir
  | chr
  | reg
  | fifo
  | other (code : Nat)
  deriving DecidableEq, Repr

def FileType.code : FileType → Nat
  | .dir => 0
  | .chr => 1
  | .reg => 2
  | .fifo => 3
  | .other code => code

def FileType.ofCode : Nat → FileType
  | 0 => .dir
  | 1 => .chr
  | 2 => .reg
  | 3 => .fifo
  | code => .other code

/-- `filename` is the address of the field: the bytes past it belong to the rest of the entry. -/
structure Dirent where
  iNo : Nat
  filename : Buffer
  fType : FileType

def Dirent.load (buf : Buffer) : Dirent where
  iNo := wordAt 8 buf 0
  filename := fun i => buf (8 + i)
  fType := .ofCode (wordAt 4 buf (8 + maxFileNameLen))

def Dirent.store (de : Dirent) : Buffer := fun i =>
  if i < 8 then byteOf de.iNo i
  else if i < 8 + maxFileNameLen then de.filename (i - 8)
  else if i < 28 then byteOf de.fType.code (i - 24)
  else de.filename (i - 8)

def cstr (name : List UInt8) : Buffer := fun i => name.getD i 0

/-- `!strcmp(a, b)`, which looks at `left` bytes at most. -/
def strEq : Nat → Buffer → Buffer → Bool
  | 0, _, _ => false
  | left + 1, a, b => a 0 == b 0 && (a 0 == 0 || strEq left (fun i => a (i + 1)) fun i => b (i + 1))

/-- The bytes from a file name to the end of its entry. -/
def nameBytes : Nat := direntSize - 8

def direntSearchFrom (s : State) (dirInode : Ptr) (name : Buffer) : Nat → Nat → Except Halt Int
  | _, 0 => .ok (-direntIsntExist)
  | idx, left + 1 => do
    let (nb, de) ← inodeRead s dirInode direntSize (idx * direntSize)
    assert (nb == direntSize)
    if strEq nameBytes (Dirent.load de).filename name then return (idx : Int)
    else direntSearchFrom s dirInode name (idx + 1) left

def direntSearch (s : State) (dirInode : Ptr) (name : Buffer) : Except Halt Int :=
  direntSearchFrom s dirInode name 0 ((s.inode dirInode).diskInode.fileSize / direntSize)

def direntAdd (s : State) (dirInode : Ptr) (de : Dirent) : Except Halt (Int × State) := do
  let found ← direntSearch s dirInode de.filename
  if found = -direntIsntExist then
    inodeWrite s dirInode de.store direntSize (s.inode dirInode).diskInode.fileSize
  else return (-direntAlreadyExist, s)

def direntDelete (s : State) (dirInode : Ptr) (name : Buffer) : Except Halt (Int × State) := do
  let dirSize := (s.inode dirInode).diskInode.fileSize
  let idx ← direntSearch s dirInode name
  if idx = -direntIsntExist then return (idx, s)
  else
    let (_, endDe) ← inodeRead s dirInode direntSize (dirSize - direntSize)
    let (_, s) ← inodeWrite s dirInode endDe direntSize (idx.toNat * direntSize)
    let (_, s) ← inodeSizeChange s dirInode (dirSize - direntSize)
    return (0, s)

def slash : UInt8 := 47

/-- `inode_read` of the entry `idx` of a directory. An entry that is not there leaves the caller's buffer unset. -/
def readDirent (s : State) (dirInode : Ptr) (idx : Int) : Except Halt Dirent := do
  let (nb, de) ← inodeRead s dirInode direntSize (idx.toNat * direntSize)
  if nb = direntSize then return Dirent.load de else .error .fault

/-- The end of `path_prase`: `name` is what follows the last slash. The type of an entry that does not exist is
    left unset, and a name that runs over the end of the entry overruns the buffer of the caller. -/
def lastEntry (s : State) (inode : Ptr) (name : List UInt8) : Except Halt (Int × Dirent × State) := do
  let s ← semaDown s inode
  let deIdx ← (if name = [] then .ok 0 else direntSearch s inode (cstr name))
  let deBuf ← (
    if deIdx < 0 then
      if name.length < nameBytes then .ok { iNo := ulongMax, filename := cstr name, fType := .other 0 }
      else .error .fault
    else readDirent s inode deIdx)
  let pINo := (s.inode inode).iNo
  let s ← semaUp s inode
  return ((pINo : Int), deBuf, s)

/-- The largest block `kalloc` gives. -/
def kallocMax : Nat := 1024

/-- The loop of `path_prase`: `name` holds the characters since the last slash. -/
def walk (s : State) (inode : Ptr) (name : List UInt8) : List UInt8 → Except Halt (Int × Dirent × State)
  | [] => lastEntry s inode name
  | c :: rest =>
    if c = slash then do
      assert (decide (name.length + 1 ≤ kallocMax))
      let s ← semaDown s inode
      let dirIdx ← direntSearch s inode (cstr name)
      let unset : Dirent := { iNo := 0, filename := fun _ => 0, fType := .other 0 }
      if dirIdx < 0 then
        let s ← inodeClose s inode
        return (-direntIsntExist, unset, s)
      else
        let de ← readDirent s inode dirIdx
        let s ← semaUp s inode
        if de.fType ≠ .dir then
          let s ← inodeClose s inode
          return (-direntIsntExist, unset, s)
        else
          let s ← inodeClose s inode
          let (opened, s) ← inodeOpen s de.iNo
          let inode ← deref opened
          walk s inode [] rest
    else walk s inode (name ++ [c]) rest

def pathPrase (s : State) (pathname : List UInt8) : Except Halt (Int × Dirent × State) :=
  match pathname with
  | [] => .error .fault
  | _ :: rest => do
    let (opened, s) ← inodeOpen s 0
    let inode ← deref opened
    walk s inode [] rest

def strcpy : Nat → Buffer → Nat → Buffer → Buffer
  | 0, dst, _, _ => dst
  | left + 1, dst, off, src =>
    let dst := Function.update dst off (src 0)
    if src 0 = 0 then dst else strcpy left dst (off + 1) fun i => src (i + 1)

/-- The entry `{ iNo, { 0 }, type }` after `strcpy` of its name: a name too long for its field runs into the type. -/
def newDirent (iNo : Nat) (name : Buffer) (type : FileType) : Dirent :=
  .load (strcpy nameBytes (Dirent.store { iNo := iNo, filename := fun _ => 0, fType := type }) 8 name)

/-- `de.f_type = type`: of a name that runs over its field the part under the type is lost. -/
def Dirent.setType (de : Dirent) (type : FileType) : Dirent :=
  .load (Dirent.store { de with fType := type })

def toSize (value : Int) : Nat := (value % 2 ^ 64).toNat

/-- `sys_mknod` once the entry is known to be free and its number is known. -/
def addNode (s : State) (pINo : Int) (name : Buffer) (type : FileType) (dev : Int) : Except Halt (Int × State) := do
  let (opened, s) ← inodeOpen s pINo.toNat
  let parentInode ← deref opened
  let s ← semaDown s parentInode
  let (addSuc, s) ← direntAdd s parentInode (newDirent (toSize dev) name type)
  if addSuc ≠ direntSize then
    let s ← (if type = .reg then diskInodeDelete s (toSize dev) else .ok s)
    let s ← semaUp s parentInode
    let s ← inodeClose s parentInode
    return (addSuc, s)
  else
    let s ← semaUp s parentInode
    let s ← inodeClose s parentInode
    return (dev, s)

def sysMknod (s : State) (pathname : List UInt8) (type : FileType) (dev : Int) : Except Halt (Int × State) := do
  if type ≠ .chr ∧ type ≠ .reg then return (-fileTypeInvalid, s)
  else
    let (pINo, deBuf, s) ← pathPrase s pathname
    if pINo = -direntIsntExist then return (pINo, s)
    else if deBuf.iNo ≠ ulongMax then return (-direntAlreadyExist, s)
    else if type = .reg then
      match diskInodeCreate s with
      | (dev, s) => if dev < 0 then return (dev, s) else addNode s pINo deBuf.filename type dev
    else addNode s pINo deBuf.filename type dev

/-- The last lines of `sys_unlink` and `sys_rmdir`. -/
def removeNode (s : State) (pINo : Int) (de : Dirent) : Except Halt (Int × State) := do
  let s ← diskInodeDelete s de.iNo
  let (opened, s) ← inodeOpen s pINo.toNat
  let parentInode ← deref opened
  let s ← semaDown s parentInode
  let (_, s) ← direntDelete s parentInode de.filename
  let s ← semaUp s parentInode
  let s ← inodeClose s parentInode
  return (0, s)

def sysUnlink (s : State) (pathname : List UInt8) : Except Halt (Int × State) := do
  let (pINo, deBuf, s) ← pathPrase s pathname
  if pINo = -direntIsntExist then return (pINo, s)
  else if deBuf.iNo = ulongMax then return (-fileIsntExist, s)
  else if deBuf.fType = .dir then return (-isntDir, s)
  else removeNode s pINo deBuf

def dotName (dots : Nat) : Buffer := cstr (List.replicate dots 46)

def sysMkdir (s : State) (pathname : List UInt8) : Except Halt (Int × State) := do
  let (iNo, s) ← sysMknod s pathname .reg 0
  if iNo < 0 then return (iNo, s)
  else
    let (pINo, de, s) ← pathPrase s pathname
    assert (decide (0 ≤ pINo))
    let (opened, s) ← inodeOpen s pINo.toNat
    let parentInode ← deref opened
    let s ← semaDown s parentInode
    let (_, s) ← direntDelete s parentInode de.filename
    let (_, s) ← direntAdd s parentInode (de.setType .dir)
    let s ← semaUp s parentInode
    let s ← inodeClose s parentInode
    let (opened, s) ← inodeOpen s iNo.toNat
    let inode ← deref opened
    let s ← semaDown s inode
    let (_, s) ← direntAdd s inode { iNo := iNo.toNat, filename := dotName 1, fType := .dir }
    let (_, s) ← direntAdd s inode { iNo := pINo.toNat, filename := dotName 2, fType := .dir }
    let s ← semaUp s inode
    let s ← inodeClose s inode
    return (0, s)

def sysRmdir (s : State) (pathname : List UInt8) : Except Halt (Int × State) := do
  let (pINo, deBuf, s) ← pathPrase s pathname
  if pINo = -direntIsntExist then return (pINo, s)
  else if deBuf.iNo = ulongMax then return (-fileIsntExist, s)
  else if deBuf.fType ≠ .dir then return (-isntDir, s)
  else
    let (opened, s) ← inodeOpen s deBuf.iNo
    let inode ← deref opened
    let s ← semaDown s inode
    let empty := (s.inode inode).diskInode.fileSize == 2 * direntSize
    let s ← semaUp s inode
    let s ← inodeClose s inode
    if !empty then return (-dirIsntEmpty, s) else removeNode s pINo deBuf

structure Stat where
  ino : Nat
  fileType : FileType
  size : Nat

/-- The buffer is written only when the result is 0. -/
def sysStat (s : State) (pathname : List UInt8) : Except Halt (Int × Option Stat × State) := do
  let (pINo, deBuf, s) ← pathPrase s pathname
  if pINo = -direntIsntExist then return (pINo, none, s)
  else if deBuf.iNo = ulongMax then return (-fileIsntExist, none, s)
  else
    let (opened, s) ← inodeOpen s deBuf.iNo
    let inode ← deref opened
    let s ← semaDown s inode
    let size := (s.inode inode).diskInode.fileSize
    let s ← semaUp s inode
    let s ← inodeClose s inode
    return (0, some { ino := deBuf.iNo, fileType := deBuf.fType, size := size }, s)

end RecoverOs.Fs
