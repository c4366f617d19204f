import SimpleKernel.Model.Filesystem.Mounts

/-! The file system on a FAT volume, an adapter to the FatFs library. An inode has the path that the
library knows the file by and, while the file is open, an object of the library from a pool. -/

namespace SimpleKernel.Filesystem

/-! ## The library -/

inductive FResult where
  | ok
  | diskErr
  | intErr
  | notReady
  | noFile
  | noPath
  | invalidName
  | denied
  | exist
  | invalidObject
  | writeProtected
  | invalidDrive
  | notEnabled
  | noFilesystem
  | mkfsAborted
  | timeout
  | locked
  | notEnoughCore
  | tooManyOpenFiles
  | invalidParameter
  deriving DecidableEq, Repr

def fresultToErrorCode : FResult → ErrorCode
  | .ok => .success
  | .noFile | .noPath => .fsFileNotFound
  | .exist => .fsFileExists
  | .denied | .writeProtected => .fsPermissionDenied
  | .notReady | .diskErr => .blkReadFailed
  | .notEnabled | .invalidDrive => .fsNotMounted
  | .notEnoughCore => .fsNoSpace
  | .invalidName | .invalidParameter | .invalidObject => .invalidArgument
  | .tooManyOpenFiles => .fsFdTableFull
  | .intErr | .mkfsAborted | .noFilesystem | .timeout | .locked => .fsCorrupted

def fresultToExpected (fr : FResult) : Expected Unit :=
  if fr = .ok then .ok () else .error (fresultToErrorCode fr)

structure FilInfo where
  fname : CString := []
  fsize : ℕ := 0
  fattrib : BitVec 8 := 0
  deriving DecidableEq, Repr

def amDir : BitVec 8 := 0x10

def FilInfo.isDirectory (info : FilInfo) : Bool := info.fattrib &&& amDir ≠ 0

def filInfoToFileType (info : FilInfo) : FileType :=
  if info.isDirectory then .directory else .regular

def faRead : BitVec 8 := 0x01

def faWrite : BitVec 8 := 0x02

def faCreateNew : BitVec 8 := 0x04

def faCreateAlways : BitVec 8 := 0x08

def faOpenAlways : BitVec 8 := 0x10

/-- The functions of the library, over states `δ` of the volumes, objects `φ` for open files (`FIL`)
and objects `ψ` for open directories (`DIR`). A function works on the object that it is given, and on
no other. -/
structure FatLibrary (δ φ ψ : Type) where
  newFil : φ
  newDir : ψ
  mount : δ → CString → FResult × δ
  unmount : δ → CString → FResult × δ
  stat : δ → CString → FResult × FilInfo × δ
  mkdir : δ → CString → FResult × δ
  unlink : δ → CString → FResult × δ
  openFil : δ → φ → CString → BitVec 8 → FResult × φ × δ
  close : δ → φ → FResult × φ × δ
  read : δ → φ → ℕ → FResult × List UInt8 × φ × δ
  write : δ → φ → List UInt8 → FResult × ℕ × φ × δ
  lseek : δ → φ → ℕ → FResult × φ × δ
  tell : φ → ℕ
  size : φ → ℕ
  opendir : δ → ψ → CString → FResult × ψ × δ
  readdir : δ → ψ → FResult × FilInfo × ψ × δ
  closedir : δ → ψ → FResult × ψ × δ

/-! ## The file system -/

def pathBufSize : ℕ := 512

def fatMaxInodes : ℕ := 256

def maxOpenFiles : ℕ := 16

def maxOpenDirs : ℕ := 8

def ffVolumes : ℕ := 2

def rootDirPermissions : ℕ := 0o755

def defaultFilePermissions : ℕ := 0o644

/-- `fil` and `dir` are positions in the pools. The field `fs_private` of an inode in use is its own
slot. -/
structure FatInode where
  inode : Inode := {}
  path : CString := []
  fil : Option ℕ := none
  inUse : Bool := false
  dir : Option ℕ := none
  deriving DecidableEq, Repr

/-- `FatFileHandle` and `FatDirHandle`. -/
structure FatHandle (α : Type) where
  object : α
  inUse : Bool := false
  deriving DecidableEq, Repr

/-- `AllocateFil` and `AllocateDir`, in a pool of `n` handles. -/
def allocateHandle {α : Type} (fresh : α) (n : ℕ) (pool : ℕ → FatHandle α) :
    Option (ℕ × (ℕ → FatHandle α)) :=
  ((List.range n).find? fun h => !(pool h).inUse).map fun h =>
    (h, Function.update pool h { object := fresh, inUse := true })

/-- `FreeFil` and `FreeDir` of a handle of the pool. -/
def freeHandle {α : Type} (pool : ℕ → FatHandle α) (h : ℕ) : ℕ → FatHandle α :=
  Function.update pool h { pool h with inUse := false }

/-- `disk` is the state of the library. -/
structure FatFs (δ φ ψ : Type) where
  volumeId : ℕ
  disk : δ
  blockDevice : Option ℕ := none
  rootInode : Option InodePtr := none
  mounted : Bool := false
  inodes : InodePtr → FatInode := fun _ => {}
  filPool : ℕ → FatHandle φ
  dirPool : ℕ → FatHandle ψ

/-- A `File` on the volume, at the address `ptr`. -/
structure FatFile where
  ptr : FilePtr
  inode : InodePtr
  offset : ℕ := 0
  flags : BitVec 32
  deriving DecidableEq, Repr

def volumePath (volumeId : ℕ) : CString := [48 + UInt8.ofNat volumeId, 58, slash]

/-- The path of a name in a directory, as the operations on inodes put it together in a buffer. -/
def fullPath (dir name : CString) : CString :=
  let full := dir.take (pathBufSize - 1)
  full ++ name.take (pathBufSize - full.length - 1)

namespace FatFs

variable {δ φ ψ : Type} (lib : FatLibrary δ φ ψ)

def setInode (fs : FatFs δ φ ψ) (i : InodePtr) (f : FatInode → FatInode) : FatFs δ φ ψ :=
  { fs with inodes := Function.update fs.inodes i (f (fs.inodes i)) }

def setFil (fs : FatFs δ φ ψ) (h : ℕ) (fil : φ) : FatFs δ φ ψ :=
  { fs with filPool := Function.update fs.filPool h { fs.filPool h with object := fil } }

def setDir (fs : FatFs δ φ ψ) (h : ℕ) (dir : ψ) : FatFs δ φ ψ :=
  { fs with dirPool := Function.update fs.dirPool h { fs.dirPool h with object := dir } }

/-! ## Inodes -/

def allocateFatInode (fs : FatFs δ φ ψ) : Option (InodePtr × FatFs δ φ ψ) :=
  ((List.range fatMaxInodes).find? fun i => !(fs.inodes i).inUse).map fun i =>
    (i, fs.setInode i fun _ => { inUse := true })

def allocateInode (fs : FatFs δ φ ψ) : Expected InodePtr × FatFs δ φ ψ :=
  match fs.allocateFatInode with
  | none => (.error .outOfMemory, fs)
  | some (i, fs) =>
    (.ok i, fs.setInode i fun r => { r with inode := { r.inode with fsPrivate := some i } })

/-- The end of `Lookup` and `Create`: an inode for the path. -/
def newInode (fs : FatFs δ φ ψ) (type : FileType) (size : ℕ) (path : CString) :
    Expected InodePtr × FatFs δ φ ψ :=
  match fs.allocateInode with
  | (.error e, fs) => (.error e, fs)
  | (.ok i, fs) =>
    (.ok i, fs.setInode i fun r =>
      { r with
        inode := { r.inode with
          ino := 0, type, size, permissions := defaultFilePermissions, linkCount := 1 }
        path := path.take (pathBufSize - 1) })

/-! ## Mounting -/

def mount (fs : FatFs δ φ ψ) (device : Option ℕ) : Expected InodePtr × FatFs δ φ ψ :=
  if device = none then (.error .invalidArgument, fs)
  else if ffVolumes ≤ fs.volumeId then (.error .invalidArgument, fs)
  else
    match lib.mount fs.disk (volumePath fs.volumeId) with
    | (fr, disk) =>
      let fs := { fs with disk, blockDevice := device }
      if fr ≠ .ok then (.error (fresultToErrorCode fr), { fs with blockDevice := none })
      else
        match fs.allocateFatInode with
        | none =>
          let disk := (lib.unmount fs.disk (volumePath fs.volumeId)).2
          (.error .outOfMemory, { fs with disk, blockDevice := none })
        | some (i, fs) =>
          let fs := fs.setInode i fun r =>
            { r with
              inode := { r.inode with
                ino := 0, type := .directory, size := 0, permissions := rootDirPermissions,
                linkCount := 1, fsPrivate := some i }
              path := (volumePath fs.volumeId).take (pathBufSize - 1) }
          (.ok i, { fs with rootInode := some i, mounted := true })

def closeDir (fs : FatFs δ φ ψ) (i : InodePtr) : FatFs δ φ ψ :=
  match (fs.inodes i).dir with
  | none => fs
  | some h =>
    let (_, dir, disk) := lib.closedir fs.disk (fs.dirPool h).object
    let fs := { fs with disk }.setDir h dir
    { fs with dirPool := freeHandle fs.dirPool h }.setInode i fun r => { r with dir := none }

/-- What `Unmount` does with an inode. -/
def releaseInode (fs : FatFs δ φ ψ) (i : InodePtr) : FatFs δ φ ψ :=
  let fs := if (fs.inodes i).inUse then fs.closeDir lib i else fs
  fs.setInode i fun r => { r with inUse := false }

def unmount (fs : FatFs δ φ ψ) : Expected Unit × FatFs δ φ ψ :=
  if !fs.mounted then (.ok (), fs)
  else
    let (fr, disk) := lib.unmount fs.disk (volumePath fs.volumeId)
    let fs := { fs with disk, blockDevice := none, mounted := false, rootInode := none }
    (fresultToExpected fr, (List.range fatMaxInodes).foldl (releaseInode lib) fs)

/-! ## The operations on inodes -/

def lookup (fs : FatFs δ φ ψ) (dir : InodePtr) (name : CString) :
    Expected InodePtr × FatFs δ φ ψ :=
  let path := fullPath (fs.inodes dir).path name
  match lib.stat fs.disk path with
  | (fr, info, disk) =>
    let fs := { fs with disk }
    if fr ≠ .ok then (.error (fresultToErrorCode fr), fs)
    else fs.newInode (filInfoToFileType info) info.fsize path

def create (fs : FatFs δ φ ψ) (dir : InodePtr) (name : CString) (type : FileType) :
    Expected InodePtr × FatFs δ φ ψ :=
  let path := fullPath (fs.inodes dir).path name
  if type = .directory then
    let (fr, disk) := lib.mkdir fs.disk path
    let fs := { fs with disk }
    if fr ≠ .ok ∧ fr ≠ .exist then (.error (fresultToErrorCode fr), fs)
    else fs.newInode type 0 path
  else
    let (fr, fil, disk) := lib.openFil fs.disk lib.newFil path (faCreateNew ||| faWrite)
    if fr ≠ .ok then (.error (fresultToErrorCode fr), { fs with disk })
    else { fs with disk := (lib.close disk fil).2.2 }.newInode type 0 path

def unlink (fs : FatFs δ φ ψ) (dir : InodePtr) (name : CString) : Expected Unit × FatFs δ φ ψ :=
  let (fr, disk) := lib.unlink fs.disk (fullPath (fs.inodes dir).path name)
  (fresultToExpected fr, { fs with disk })

def mkdir (fs : FatFs δ φ ψ) (dir : InodePtr) (name : CString) : Expected InodePtr × FatFs δ φ ψ :=
  fs.create lib dir name .directory

def rmdir (fs : FatFs δ φ ψ) (dir : InodePtr) (name : CString) : Expected Unit × FatFs δ φ ψ :=
  fs.unlink lib dir name

/-! ## The operations on files -/

def oWriteOnly : BitVec 32 := 0x0001

def oReadWrite : BitVec 32 := 0x0002

def oTruncate : BitVec 32 := 0x0200

/-- The mode that the library opens a file in. -/
def faMode (flags : BitVec 32) : BitVec 8 :=
  let mode := if flags = 0 then faRead else 0
  let mode := if flags &&& oWriteOnly ≠ 0 then faWrite else mode
  let mode := if flags &&& oReadWrite ≠ 0 then faRead ||| faWrite else mode
  let mode := if flags &&& oCreate ≠ 0 then mode ||| faOpenAlways else mode
  if flags &&& oTruncate ≠ 0 then mode ||| faCreateAlways else mode

/-- A file that is open already is not opened again. -/
def openFil (fs : FatFs δ φ ψ) (i : InodePtr) (flags : BitVec 32) : Expected Unit × FatFs δ φ ψ :=
  if (fs.inodes i).fil ≠ none then (.ok (), fs)
  else
    match allocateHandle lib.newFil maxOpenFiles fs.filPool with
    | none => (.error .fsFdTableFull, fs)
    | some (h, filPool) =>
      let (fr, fil, disk) := lib.openFil fs.disk (filPool h).object (fs.inodes i).path (faMode flags)
      let fs := { fs with disk, filPool }.setFil h fil
      if fr ≠ .ok then
        (.error (fresultToErrorCode fr), { fs with filPool := freeHandle fs.filPool h })
      else (.ok (), fs.setInode i fun r => { r with fil := some h })

def openFile (fs : FatFs δ φ ψ) (file : FatFile) : Expected Unit × FatFs δ φ ψ :=
  if (fs.inodes file.inode).inode.type = .directory then (.ok (), fs)
  else fs.openFil lib file.inode file.flags

/-- `Read`, with the bytes that it copies to the buffer. A `UINT` has 32 bits. -/
def read (fs : FatFs δ φ ψ) (file : FatFile) (count : ℕ) :
    Expected (List UInt8) × FatFs δ φ ψ × FatFile :=
  match (fs.inodes file.inode).fil with
  | none => (.error .fsInvalidFd, fs, file)
  | some h =>
    let (fr, bytes, fil, disk) := lib.read fs.disk (fs.filPool h).object (count % 2 ^ 32)
    let fs := { fs with disk }.setFil h fil
    if fr ≠ .ok then (.error (fresultToErrorCode fr), fs, file)
    else (.ok bytes, fs, { file with offset := (file.offset + bytes.length) % 2 ^ 64 })

def write (fs : FatFs δ φ ψ) (file : FatFile) (buf : List UInt8) :
    Expected ℕ × FatFs δ φ ψ × FatFile :=
  match (fs.inodes file.inode).fil with
  | none => (.error .fsInvalidFd, fs, file)
  | some h =>
    let (fr, written, fil, disk) :=
      lib.write fs.disk (fs.filPool h).object (buf.take (buf.length % 2 ^ 32))
    let fs := { fs with disk }.setFil h fil
    if fr ≠ .ok then (.error (fresultToErrorCode fr), fs, file)
    else
      (.ok written,
        fs.setInode file.inode fun r => { r with inode := { r.inode with size := lib.size fil } },
        { file with offset := (file.offset + written) % 2 ^ 64 })

/-- The position that `Seek` asks for. A `FSIZE_t` has 32 bits; no `whence` but the three changes the
initial 0. -/
def newPos (fil : φ) (offset : ℤ) : SeekWhence → ℕ
  | .kSet => (offset % 2 ^ 32).toNat
  | .kCur => ((lib.tell fil + offset) % 2 ^ 32).toNat
  | .kEnd => ((lib.size fil + offset) % 2 ^ 32).toNat
  | .other => 0

def seek (fs : FatFs δ φ ψ) (file : FatFile) (offset : ℤ) (whence : SeekWhence) :
    Expected ℕ × FatFs δ φ ψ × FatFile :=
  match (fs.inodes file.inode).fil with
  | none => (.error .fsInvalidFd, fs, file)
  | some h =>
    let pos := newPos lib (fs.filPool h).object offset whence
    let (fr, fil, disk) := lib.lseek fs.disk (fs.filPool h).object pos
    let fs := { fs with disk }.setFil h fil
    if fr ≠ .ok then (.error (fresultToErrorCode fr), fs, file)
    else (.ok pos, fs, { file with offset := pos })

/-- `Close` ends the iteration over a directory and gives the object of an open file back. -/
def close (fs : FatFs δ φ ψ) (file : FatFile) : Expected Unit × FatFs δ φ ψ :=
  let fs := fs.closeDir lib file.inode
  match (fs.inodes file.inode).fil with
  | none => (.ok (), fs)
  | some h =>
    let (fr, fil, disk) := lib.close fs.disk (fs.filPool h).object
    let fs := { fs with disk }.setFil h fil
    (fresultToExpected fr,
      { fs with filPool := freeHandle fs.filPool h }.setInode file.inode fun r =>
        { r with fil := none })

/-- The loop of `ReadDir`, with the entries that it copies: their types and names. -/
def readEntries (h : ℕ) : ℕ → FatFs δ φ ψ → List (FileType × CString) × FatFs δ φ ψ
  | 0, fs => ([], fs)
  | count + 1, fs =>
    let (fr, info, dir, disk) := lib.readdir fs.disk (fs.dirPool h).object
    let fs := { fs with disk }.setDir h dir
    if fr ≠ .ok ∨ info.fname = [] then ([], fs)
    else
      let (entries, fs) := readEntries h count fs
      ((filInfoToFileType info, info.fname.take 255) :: entries, fs)

def readDir (fs : FatFs δ φ ψ) (file : FatFile) (count : ℕ) :
    Expected (List (FileType × CString)) × FatFs δ φ ψ × FatFile :=
  let iterate (h : ℕ) (fs : FatFs δ φ ψ) :=
    let (entries, fs) := readEntries lib h count fs
    (.ok entries, fs, { file with offset := (file.offset + entries.length) % 2 ^ 64 })
  match (fs.inodes file.inode).dir with
  | some h => iterate h fs
  | none =>
    match allocateHandle lib.newDir maxOpenDirs fs.dirPool with
    | none => (.error .fsFdTableFull, fs, file)
    | some (h, dirPool) =>
      let (fr, dir, disk) := lib.opendir fs.disk (dirPool h).object (fs.inodes file.inode).path
      let fs := { fs with disk, dirPool }.setDir h dir
      if fr ≠ .ok then
        (.error (fresultToErrorCode fr), { fs with dirPool := freeHandle fs.dirPool h }, file)
      else iterate h (fs.setInode file.inode fun r => { r with dir := some h })

end FatFs

/-! ## Runs -/

/-- The calls of the virtual file system. Those on an inode are made while it is in use, and those on
a file while it exists; a null buffer is `false` or `none`. -/
inductive FatCall where
  | mount (device : Option ℕ)
  | unmount
  | lookup (dir : InodePtr) (name : CString)
  | create (dir : InodePtr) (name : CString) (type : FileType)
  | mkdir (dir : InodePtr) (name : CString)
  | unlink (dir : InodePtr) (name : CString)
  | rmdir (dir : InodePtr) (name : CString)
  | openFile (inode : InodePtr) (flags : BitVec 32) (file : FilePtr)
  | read (file : FilePtr) (buf : Bool) (count : ℕ)
  | write (file : FilePtr) (buf : Option (List UInt8))
  | seek (file : FilePtr) (offset : ℤ) (whence : SeekWhence)
  | readDir (file : FilePtr) (count : ℕ)
  | close (file : FilePtr)
  deriving DecidableEq, Repr

def FatCall.file : FatCall → Option FilePtr
  | openFile _ _ ptr | read ptr _ _ | write ptr _ | seek ptr _ _ | readDir ptr _ | close ptr => some ptr
  | _ => none

/-- The file system with the files that are open. -/
structure FatSession (δ φ ψ : Type) where
  fs : FatFs δ φ ψ
  files : List FatFile := []

namespace FatSession

variable {δ φ ψ : Type} (lib : FatLibrary δ φ ψ)

def file (s : FatSession δ φ ψ) (ptr : FilePtr) : Option FatFile :=
  s.files.find? fun file => file.ptr = ptr

def setFile (s : FatSession δ φ ψ) (fs : FatFs δ φ ψ) (file : FatFile) : FatSession δ φ ψ :=
  { fs, files := s.files.map fun g => if g.ptr = file.ptr then file else g }

def onInode (s : FatSession δ φ ψ) (i : InodePtr) (f : FatFs δ φ ψ → FatFs δ φ ψ) :
    Option (FatSession δ φ ψ) :=
  if i < fatMaxInodes ∧ (s.fs.inodes i).inUse then some { s with fs := f s.fs } else none

/-- `vfs::Write` allows it to files that have been opened for writing. -/
def writable (flags : BitVec 32) : Bool :=
  flags &&& FatFs.oWriteOnly ≠ 0 || flags &&& FatFs.oReadWrite ≠ 0

def step (s : FatSession δ φ ψ) : FatCall → Option (FatSession δ φ ψ)
  | .mount device => some { s with fs := (s.fs.mount lib device).2 }
  -- no file of the volume may be open
  | .unmount => if s.files = [] then some { s with fs := (s.fs.unmount lib).2 } else none
  | .lookup dir name => s.onInode dir fun fs => (fs.lookup lib dir name).2
  | .create dir name type => s.onInode dir fun fs => (fs.create lib dir name type).2
  | .mkdir dir name => s.onInode dir fun fs => (fs.mkdir lib dir name).2
  | .unlink dir name => s.onInode dir fun fs => (fs.unlink lib dir name).2
  | .rmdir dir name => s.onInode dir fun fs => (fs.rmdir lib dir name).2
  | .openFile inode flags ptr =>
    if inode < fatMaxInodes ∧ (s.fs.inodes inode).inUse ∧ ptr ∉ s.files.map FatFile.ptr then
      let file : FatFile := { ptr, inode, flags }
      match s.fs.openFile lib file with
      | (.error _, fs) => some { s with fs }
      | (.ok _, fs) => some { fs, files := file :: s.files }
    else none
  | .read ptr buf count => (s.file ptr).map fun file =>
    if !buf then s
    else
      let (_, fs, file) := s.fs.read lib file count
      s.setFile fs file
  | .write ptr buf => (s.file ptr).map fun file =>
    match buf with
    | none => s
    | some buf =>
      if !writable file.flags then s
      else
        let (_, fs, file) := s.fs.write lib file buf
        s.setFile fs file
  | .seek ptr offset whence => (s.file ptr).map fun file =>
    let (_, fs, file) := s.fs.seek lib file offset whence
    s.setFile fs file
  | .readDir ptr count => (s.file ptr).map fun file =>
    if (s.fs.inodes file.inode).inode.type ≠ .directory then s
    else
      let (_, fs, file) := s.fs.readDir lib file count
      s.setFile fs file
  | .close ptr => (s.file ptr).map fun file =>
    match s.fs.close lib file with
    | (.error _, fs) => { s with fs }
    | (.ok _, fs) => { fs, files := s.files.erase file }

end FatSession

/-- The runs of one file system on the volume `volumeId`, from its construction on. -/
def fatSystem {δ φ ψ : Type} (lib : FatLibrary δ φ ψ) (volumeId : ℕ) (disk : δ) :
    Transition (FatSession δ φ ψ) FatCall where
  init s := s = { fs := {
    volumeId, disk, filPool := fun _ => ⟨lib.newFil, false⟩, dirPool := fun _ => ⟨lib.newDir, false⟩ } }
  step := FatSession.step lib

end SimpleKernel.Filesystem
