import SimpleKernel.Model.Basic
import Mathlib.Logic.Function.Basic

/-! The file system in memory: a pool of inodes with a free list, directories, whose entries are
arrays, and files, whose bytes are arrays too. Both kinds of arrays are in a pool from which memory
is only taken. -/

namespace SimpleKernel.Filesystem

/-- The bytes of a string before its final zero. -/
abbrev CString := List UInt8

inductive FileType where
  | unknown
  | regular
  | directory
  | charDevice
  | blockDevice
  | symlink
  | fifo
  deriving DecidableEq, Repr

/-- The inodes are named by their index in `inodes_`. -/
abbrev InodePtr := ℕ

/-- `ino` is the address of the inode. -/
structure Inode where
  ino : ℕ := 0
  type : FileType := .unknown
  size : ℕ := 0
  permissions : ℕ := 0o644
  linkCount : ℕ := 1
  fsPrivate : Option InodePtr := none
  deriving DecidableEq, Repr

/-- `data` is a position in the pool that the type of the inode has its memory in. -/
structure RamInode where
  inode : Inode := {}
  data : Option ℕ := none
  capacity : ℕ := 0
  childCount : ℕ := 0
  nextFree : Option InodePtr := none
  deriving DecidableEq, Repr

structure RamDirEntry where
  name : CString := []
  inode : Option InodePtr := none
  deriving DecidableEq, Repr

def maxInodes : ℕ := 1024

def fileDataPoolSize : ℕ := 1024 * 1024

def dirDataPoolSize : ℕ := 256 * 1024

def sizeofRamDirEntry : ℕ := 264

def alignofRamDirEntry : ℕ := 8

/-- The pool of directory entries is seen as the entries at its positions; all of its regions
start at a multiple of their size. -/
structure RamFs where
  inodes : InodePtr → RamInode := fun _ => {}
  freeList : Option InodePtr := none
  rootInode : Option InodePtr := none
  usedInodes : ℕ := 0
  mounted : Bool := false
  fileDataPool : ℕ → UInt8 := fun _ => 0
  fileDataPoolUsed : ℕ := 0
  dirDataPool : ℕ → RamDirEntry := fun _ => {}
  dirDataPoolUsed : ℕ := 0

def entryAt (data i : ℕ) : ℕ := data + i * sizeofRamDirEntry

namespace RamFs

def setInode (fs : RamFs) (i : InodePtr) (f : RamInode → RamInode) : RamFs :=
  { fs with inodes := Function.update fs.inodes i (f (fs.inodes i)) }

def setEntry (fs : RamFs) (pos : ℕ) (entry : RamDirEntry) : RamFs :=
  { fs with dirDataPool := Function.update fs.dirDataPool pos entry }

def setType (fs : RamFs) (i : InodePtr) (type : FileType) : RamFs :=
  fs.setInode i fun r => { r with inode := { r.inode with type } }

/-! ## Inodes -/

def allocateInode (fs : RamFs) : Expected InodePtr × RamFs :=
  match fs.freeList with
  | none => (.error .outOfMemory, fs)
  | some i =>
    let fs := { fs with freeList := (fs.inodes i).nextFree }
    let fs := fs.setInode i fun _ =>
      { inode := { ino := i, type := .unknown, size := 0, permissions := 0o644, linkCount := 1,
                   fsPrivate := some i }
        data := none, capacity := 0, childCount := 0, nextFree := none }
    (.ok i, { fs with usedInodes := fs.usedInodes + 1 })

/-- `FreeInode` of an inode in use, whose `fs_private` is its `RamInode`. -/
def freeInode (fs : RamFs) (inode : Option InodePtr) : Expected Unit × RamFs :=
  match inode with
  | none => (.error .invalidArgument, fs)
  | some i =>
    let i := (fs.inodes i).inode.fsPrivate.getD i
    let fs := fs.setInode i fun r =>
      { r with
        inode := { r.inode with type := .unknown, size := 0, fsPrivate := none }
        data := none, capacity := 0, childCount := 0, nextFree := fs.freeList }
    (.ok (), { fs with freeList := some i, usedInodes := fs.usedInodes - 1 })

/-! ## Mounting -/

/-- The loop of `Mount`, which puts the inodes below `n` on the free list, the last one first. -/
def linkInodes : ℕ → RamFs → RamFs
  | 0, fs => fs
  | n + 1, fs =>
    linkInodes n { fs.setInode n fun r => { r with nextFree := fs.freeList } with
      freeList := some n }

def mount (fs : RamFs) (device : Option ℕ) : Expected InodePtr × RamFs :=
  if fs.mounted then (.error .fsAlreadyMounted, fs)
  else if device ≠ none then (.error .invalidArgument, fs)
  else
    match (linkInodes maxInodes { fs with freeList := none }).allocateInode with
    | (.error e, fs) => (.error e, fs)
    | (.ok root, fs) =>
      let fs := fs.setInode root fun r =>
        { r with
          inode := { r.inode with type := .directory, permissions := 0o755 }
          data := none, capacity := 0, childCount := 0 }
      (.ok root, { fs with rootInode := some root, usedInodes := 1, mounted := true })

def unmount (fs : RamFs) : Expected Unit × RamFs :=
  if !fs.mounted then (.error .fsNotMounted, fs)
  else
    (.ok (), { fs with
      inodes := fun i =>
        let r := fs.inodes i
        if i < maxInodes && r.inode.type ≠ .unknown && r.data ≠ none then { r with data := none } else r
      freeList := none
      rootInode := none
      usedInodes := 0
      mounted := false
      fileDataPoolUsed := 0
      dirDataPoolUsed := 0 })

/-! ## Directories -/

def findInDirectory (fs : RamFs) (dir : Option InodePtr) (name : CString) : Option ℕ :=
  match dir with
  | none => none
  | some d =>
    if (fs.inodes d).inode.type ≠ .directory then none
    else
      match (fs.inodes d).data with
      | none => none
      | some data => ((List.range (fs.inodes d).childCount).map (entryAt data)).find? fun pos =>
        (fs.dirDataPool pos).name = name

def allocateDirEntries (fs : RamFs) (count : ℕ) : Option (ℕ × RamFs) :=
  let bytes := count * sizeofRamDirEntry
  let aligned := (bytes + alignofRamDirEntry - 1) / alignofRamDirEntry * alignofRamDirEntry
  if dirDataPoolSize < fs.dirDataPoolUsed + aligned then none
  else some (fs.dirDataPoolUsed, { fs with dirDataPoolUsed := fs.dirDataPoolUsed + aligned })

/-- `memcpy` of the first `n` entries at `src` to `dst`. -/
def copyEntries (pool : ℕ → RamDirEntry) (dst src : ℕ) : ℕ → ℕ → RamDirEntry
  | 0 => pool
  | n + 1 => Function.update (copyEntries pool dst src n) (entryAt dst n) (pool (entryAt src n))

/-- The array of the directory gets room for a further entry. -/
def growDirectory (fs : RamFs) (d : InodePtr) : Option RamFs :=
  let dir := fs.inodes d
  let currentEntries := dir.capacity / sizeofRamDirEntry
  if currentEntries ≤ dir.childCount then
    let newCapacity := if currentEntries = 0 then 16 else currentEntries * 2
    match fs.allocateDirEntries newCapacity with
    | none => none
    | some (newData, fs) =>
      let fs := match dir.data with
        | none => fs
        | some data =>
          { fs with dirDataPool := copyEntries fs.dirDataPool newData data dir.childCount }
      some (fs.setInode d fun r =>
        { r with data := some newData, capacity := newCapacity * sizeofRamDirEntry })
  else some fs

/-- The new entry behind the others. Its name is cut off at 255 bytes. -/
def appendEntry (fs : RamFs) (d : InodePtr) (name : CString) (inode : InodePtr) : RamFs :=
  let dir := fs.inodes d
  let fs := fs.setEntry (entryAt (dir.data.getD 0) dir.childCount) ⟨name.take 255, some inode⟩
  let fs := fs.setInode d fun r => { r with childCount := r.childCount + 1 }
  fs.setInode inode fun r =>
    { r with inode := { r.inode with linkCount := (r.inode.linkCount + 1) % 2 ^ 32 } }

def addToDirectory (fs : RamFs) (dir : Option InodePtr) (name : CString) (inode : InodePtr) :
    Expected Unit × RamFs :=
  match dir with
  | none => (.error .invalidArgument, fs)
  | some d =>
    if (fs.inodes d).inode.type ≠ .directory then (.error .fsNotADirectory, fs)
    else if (fs.findInDirectory dir name).isSome then (.error .fsFileExists, fs)
    else
      match fs.growDirectory d with
      | none => (.error .outOfMemory, fs)
      | some fs => (.ok (), fs.appendEntry d name inode)

/-- The last entry takes the place of the removed one. -/
def removeFromDirectory (fs : RamFs) (dir : Option InodePtr) (name : CString) :
    Expected Unit × RamFs :=
  match dir, fs.findInDirectory dir name with
  | none, _ => (.error .invalidArgument, fs)
  | some _, none => (.error .fsFileNotFound, fs)
  | some d, some entry =>
    let fs := match (fs.dirDataPool entry).inode with
      | none => fs
      | some i => fs.setInode i fun r =>
        { r with inode := { r.inode with linkCount := (2 ^ 32 - 1 + r.inode.linkCount) % 2 ^ 32 } }
    let last := entryAt ((fs.inodes d).data.getD 0) ((fs.inodes d).childCount - 1)
    let fs := if entry ≠ last then fs.setEntry entry (fs.dirDataPool last) else fs
    (.ok (), fs.setInode d fun r => { r with childCount := r.childCount - 1 })

def isDirectoryEmpty (fs : RamFs) (dir : Option InodePtr) : Bool :=
  match dir with
  | none => true
  | some d => (fs.inodes d).inode.type ≠ .directory || (fs.inodes d).childCount = 0

/-! ## The operations on inodes -/

def lookup (fs : RamFs) (dir : Option InodePtr) (name : Option CString) :
    Expected (Option InodePtr) :=
  match dir, name with
  | some d, some name =>
    match fs.findInDirectory (fs.inodes d).inode.fsPrivate name with
    | none => .error .fsFileNotFound
    | some entry => .ok (fs.dirDataPool entry).inode
  | _, _ => .error .invalidArgument

def create (fs : RamFs) (dir : Option InodePtr) (name : Option CString) (type : FileType) :
    Expected InodePtr × RamFs :=
  match dir, name with
  | some d, some name =>
    if type ≠ .regular ∧ type ≠ .directory then (.error .invalidArgument, fs)
    else
      let ramDir := (fs.inodes d).inode.fsPrivate
      match fs.allocateInode with
      | (.error e, fs) => (.error e, fs)
      | (.ok newInode, fs) =>
        let fs := fs.setType newInode type
        match fs.addToDirectory ramDir name newInode with
        | (.error e, fs) => (.error e, (fs.freeInode (some newInode)).2)
        | (.ok _, fs) => (.ok newInode, fs)
  | _, _ => (.error .invalidArgument, fs)

def mkdir (fs : RamFs) (dir : Option InodePtr) (name : Option CString) : Expected InodePtr × RamFs :=
  fs.create dir name .directory

/-- The inode that the entry points to is released if it has no links. -/
def freeUnlinked (fs : RamFs) (entry : ℕ) : RamFs :=
  match (fs.dirDataPool entry).inode with
  | none => fs
  | some i => if (fs.inodes i).inode.linkCount = 0 then (fs.freeInode (some i)).2 else fs

def unlink (fs : RamFs) (dir : Option InodePtr) (name : Option CString) : Expected Unit × RamFs :=
  match dir, name with
  | some d, some name =>
    let ramDir := (fs.inodes d).inode.fsPrivate
    match fs.findInDirectory ramDir name with
    | none => (.error .fsFileNotFound, fs)
    | some entry =>
      if (fs.dirDataPool entry).inode.any fun i => (fs.inodes i).inode.type = .directory then
        (.error .fsIsADirectory, fs)
      else
        match fs.removeFromDirectory ramDir name with
        | (.error e, fs) => (.error e, fs)
        -- the entry is read again, and the last entry may have taken its place
        | (.ok _, fs) => (.ok (), fs.freeUnlinked entry)
  | _, _ => (.error .invalidArgument, fs)

def rmdir (fs : RamFs) (dir : Option InodePtr) (name : Option CString) : Expected Unit × RamFs :=
  match dir, name with
  | some d, some name =>
    let ramDir := (fs.inodes d).inode.fsPrivate
    match fs.findInDirectory ramDir name with
    | none => (.error .fsFileNotFound, fs)
    | some entry =>
      match (fs.dirDataPool entry).inode with
      | none => (.error .fsNotADirectory, fs)
      | some i =>
        if (fs.inodes i).inode.type ≠ .directory then (.error .fsNotADirectory, fs)
        else if !fs.isDirectoryEmpty (fs.inodes i).inode.fsPrivate then (.error .fsNotEmpty, fs)
        else
          match fs.removeFromDirectory ramDir name with
          | (.error e, fs) => (.error e, fs)
          | (.ok _, fs) => (.ok (), fs.freeUnlinked entry)
  | _, _ => (.error .invalidArgument, fs)

end RamFs

/-! ## The operations on files -/

/-- An open file. -/
structure File where
  inode : Option InodePtr := none
  offset : ℕ := 0
  deriving DecidableEq, Repr

/-- Any other value is `other`. -/
inductive SeekWhence where
  | kSet
  | kCur
  | kEnd
  | other
  deriving DecidableEq, Repr

def copyBytes (pool : ℕ → UInt8) (dst : ℕ) (bytes : List UInt8) (pos : ℕ) : UInt8 :=
  if dst ≤ pos then bytes.getD (pos - dst) (pool pos) else pool pos

namespace RamFs

def bytesAt (fs : RamFs) (src count : ℕ) : List UInt8 :=
  (List.range count).map fun k => fs.fileDataPool (src + k)

def allocateFileData (fs : RamFs) (size : ℕ) : Option (ℕ × RamFs) :=
  let aligned := (size + 15) % 2 ^ 64 / 16 * 16
  if fileDataPoolSize < (fs.fileDataPoolUsed + aligned) % 2 ^ 64 then none
  else some (fs.fileDataPoolUsed, { fs with
    fileDataPoolUsed := (fs.fileDataPoolUsed + aligned) % 2 ^ 64 })

/-- A larger region, with the bytes of the file copied to it. -/
def expandFile (fs : RamFs) (i : InodePtr) (newSize : ℕ) : Expected Unit × RamFs :=
  let r := fs.inodes i
  if newSize ≤ r.capacity then (.ok (), fs)
  else
    let newCapacity := (newSize + 255) % 2 ^ 64 / 256 * 256
    match fs.allocateFileData newCapacity with
    | none => (.error .outOfMemory, fs)
    | some (newData, fs) =>
      let fs := match r.data with
        | none => fs
        | some data =>
          let bytes := fs.bytesAt data r.inode.size
          { fs with fileDataPool := copyBytes fs.fileDataPool newData bytes }
      (.ok (), fs.setInode i fun r => { r with data := some newData, capacity := newCapacity })

/-- `Read`, with the bytes that it copies to the buffer. `buf` tells that the buffer is not null. -/
def read (fs : RamFs) (file : File) (buf : Bool) (count : ℕ) : Expected (List UInt8) × File :=
  if !buf then (.error .invalidArgument, file)
  else
    match file.inode with
    | none => (.error .fsCorrupted, file)
    | some inode =>
      if (fs.inodes inode).inode.type ≠ .regular then (.error .fsIsADirectory, file)
      else
        let i := (fs.inodes inode).inode.fsPrivate.getD inode
        let size := (fs.inodes inode).inode.size
        if size ≤ file.offset then (.ok [], file)
        else
          let toRead := if count < size - file.offset then count else size - file.offset
          (.ok (fs.bytesAt ((fs.inodes i).data.getD 0 + file.offset) toRead),
            { file with offset := (file.offset + toRead) % 2 ^ 64 })

/-- `Write` of the bytes in the buffer, which is not null. The address `dst` does not wrap at
`2 ^ 64`. -/
def write (fs : RamFs) (file : File) (buf : Option (List UInt8)) :
    Expected ℕ × RamFs × File :=
  match buf, file.inode with
  | none, _ => (.error .invalidArgument, fs, file)
  | some _, none => (.error .fsCorrupted, fs, file)
  | some bytes, some inode =>
    if (fs.inodes inode).inode.type ≠ .regular then (.error .fsIsADirectory, fs, file)
    else
      let i := (fs.inodes inode).inode.fsPrivate.getD inode
      let newSize := (file.offset + bytes.length) % 2 ^ 64
      let expanded := if (fs.inodes i).capacity < newSize then fs.expandFile i newSize else (.ok (), fs)
      match expanded with
      | (.error e, fs) => (.error e, fs, file)
      | (.ok _, fs) =>
        let dst := (fs.inodes i).data.getD 0 + file.offset
        let fs := { fs with fileDataPool := copyBytes fs.fileDataPool dst bytes }
        let file := { file with offset := (file.offset + bytes.length) % 2 ^ 64 }
        let fs := if (fs.inodes inode).inode.size < file.offset then
            fs.setInode inode fun r => { r with inode := { r.inode with size := file.offset } }
          else fs
        (.ok bytes.length, fs, file)

/-- The value of a signed number as an unsigned one of 64 bits. -/
def toUInt64 (x : ℤ) : ℕ := (x % 2 ^ 64).toNat

/-- `Seek`. `-offset` and the signed sums wrap around here; in C++ their overflow is undefined. -/
def seek (fs : RamFs) (file : File) (offset : ℤ) (whence : SeekWhence) : Expected ℕ × File :=
  let move (newOffset : ℕ) : Expected ℕ × File := (.ok newOffset, { file with offset := newOffset })
  match whence with
  | .kSet => if offset < 0 then (.error .invalidArgument, file) else move (toUInt64 offset)
  | .kCur =>
    if offset < 0 ∧ file.offset < toUInt64 (-offset) then (.error .invalidArgument, file)
    else move (toUInt64 (file.offset + offset))
  | .kEnd =>
    match file.inode with
    | none => (.error .fsCorrupted, file)
    | some inode =>
      let size := (fs.inodes inode).inode.size
      if offset < 0 ∧ size < toUInt64 (-offset) then (.error .invalidArgument, file)
      else move (toUInt64 (size + offset))
  | .other => (.error .invalidArgument, file)

/-- The default implementation in `vfs::Seek`, for a file without operations. Its text is that of
`seek`. -/
def defaultSeek := seek

/-- `vfs::Seek`. `ops` tells that the file has operations. -/
def vfsSeek (fs : RamFs) (ops : Bool) (file : Option File) (offset : ℤ) (whence : SeekWhence) :
    Expected ℕ × Option File :=
  match file with
  | none => (.error .invalidArgument, none)
  | some file => ((if ops then fs.seek else fs.defaultSeek) file offset whence).map id some

end RamFs

end SimpleKernel.Filesystem
