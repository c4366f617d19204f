import SimpleKernel.Model.Filesystem.FileDescriptorTable
import SimpleKernel.Model.Filesystem.RamFs

/-! The interface of a file system, the directory entries that the virtual file system keeps in
memory, and the table of the mounted file systems. -/

namespace SimpleKernel.Filesystem

/-! ## File systems -/

abbrev FsPtr := ℕ

abbrev DentryPtr := ℕ

/-- An inode: the file system that it belongs to, and its name there. -/
structure InodeRef where
  fs : FsPtr
  ptr : InodePtr
  deriving DecidableEq, Repr

/-- `FileSystem`, with the operations on its inodes and its files, over states `σ`. A null pointer
is `none`; `hasOps` tells that the operations of an inode are not null. -/
structure FileSystem (σ : Type) where
  mount : σ → Option ℕ → Expected (Option InodePtr) × σ
  unmount : σ → Expected Unit × σ
  type : σ → InodePtr → FileType
  hasOps : σ → InodePtr → Bool
  lookup : σ → InodePtr → CString → Expected (Option InodePtr) × σ
  create : σ → InodePtr → CString → FileType → Expected (Option InodePtr) × σ
  mkdir : σ → InodePtr → CString → Expected (Option InodePtr) × σ
  unlink : σ → InodePtr → CString → Expected Unit × σ
  rmdir : σ → InodePtr → CString → Expected Unit × σ
  openFile : σ → InodePtr → BitVec 32 → Expected Unit × σ
  closeFile : σ → InodePtr → Expected Unit × σ

/-- The file system in memory. Its inodes always have their operations, and its files need no
preparation. -/
def ramFs : FileSystem RamFs where
  mount fs device := (fs.mount device).map (·.map some) id
  unmount fs := fs.unmount
  type fs i := (fs.inodes i).inode.type
  hasOps _ _ := true
  lookup fs dir name := (fs.lookup (some dir) (some name), fs)
  create fs dir name type := (fs.create (some dir) (some name) type).map (·.map some) id
  mkdir fs dir name := (fs.mkdir (some dir) (some name)).map (·.map some) id
  unlink fs dir name := fs.unlink (some dir) (some name)
  rmdir fs dir name := fs.rmdir (some dir) (some name)
  openFile fs _ _ := (.ok (), fs)
  closeFile fs _ := (.ok (), fs)

/-! ## Directory entries and open files -/

structure Dentry where
  name : CString := []
  inode : Option InodeRef := none
  parent : Option DentryPtr := none
  children : Option DentryPtr := none
  nextSibling : Option DentryPtr := none
  refCount : ℕ := 0
  deleted : Bool := false
  deriving DecidableEq, Repr

/-- A `File` that has been opened, at the address `ptr`. -/
structure OpenFile where
  ptr : FilePtr
  inode : InodeRef
  dentry : DentryPtr
  flags : BitVec 32
  deriving DecidableEq, Repr

def oCreate : BitVec 32 := 0x0040

def oDirectory : BitVec 32 := 0x010000

/-! ## Paths -/

def slash : UInt8 := 47

def dot : CString := [46]

def dotDot : CString := [46, 46]

def maxPathLength : ℕ := 4096

def skipLeadingSlashes (path : CString) : CString := path.dropWhile (· = slash)

/-- `CopyPathComponent` into a buffer of 256 bytes. -/
def copyPathComponent (src : CString) : CString := (src.takeWhile (· ≠ slash)).take 255

/-- The components that a loop takes from a path without leading slashes, in `n` rounds at most. -/
def componentsFrom : ℕ → CString → List CString
  | 0, _ => []
  | n + 1, path =>
    let component := copyPathComponent path
    if component = [] then []
    else component :: componentsFrom n (skipLeadingSlashes (path.drop component.length))

def components (path : CString) : List CString :=
  componentsFrom path.length (skipLeadingSlashes path)

/-- The directory of a path and the name in it, split at the last slash. -/
def splitPath (path : CString) : CString × CString :=
  let name := (path.reverse.takeWhile (· ≠ slash)).reverse
  let parentLen := path.length - name.length - 1
  if slash ∉ path ∨ parentLen = 0 then
    ([slash], if path.head? = some slash then path.drop 1 else path)
  else (path.take parentLen, name)

/-- As `Open` and `MkDir` split a path, if the two parts fit into buffers of 512 and 256 bytes. -/
def splitChecked (path : CString) : Option (CString × CString) :=
  let (parent, name) := splitPath path
  if 512 ≤ parent.length ∨ 256 ≤ name.length then none else some (parent, name)

/-- As `Unlink` and `RmDir` split a path. What does not fit is cut off. -/
def splitCut (path : CString) : CString × CString :=
  let (parent, name) := splitPath path
  (parent.take 511, name.take 255)

/-! ## The mount table -/

/-- An active mount point. `mountPath` is the string that was passed to `Mount`; the source keeps the
pointer to it, so the caller must not change it. -/
structure MountPoint where
  mountPath : CString
  mountDentry : Option DentryPtr
  filesystem : FsPtr
  device : Option ℕ
  rootInode : InodePtr
  rootDentry : DentryPtr
  deriving DecidableEq, Repr

def maxMounts : ℕ := 16

/-- The slots that are not active are `none`; `rootMount` is the index of a slot. -/
structure MountTable where
  mounts : ℕ → Option MountPoint := fun _ => none
  mountCount : ℕ := 0
  rootMount : Option ℕ := none

namespace MountTable

/-- The first of the slots below `n` that is mounted on the path. -/
def findPath (t : MountTable) (n : ℕ) (path : CString) : Option ℕ :=
  (List.range n).find? fun i => (t.mounts i).any fun mp => mp.mountPath = path

def freeSlot (t : MountTable) : Option ℕ :=
  (List.range maxMounts).find? fun i => (t.mounts i).isNone

/-- The path starts with the mount path, which ends at a component. -/
def isUnder (path mountPath : CString) : Bool :=
  mountPath.isPrefixOf path &&
    (path[mountPath.length]? = none || path[mountPath.length]? = some slash || mountPath = [slash])

/-- The slot with the longest mount path that the path is under. -/
def lookup (t : MountTable) (path : CString) : Option ℕ :=
  if path.head? ≠ some slash then none
  else
    ((List.range maxMounts).foldl (fun best i =>
      match t.mounts i with
      | none => best
      | some mp =>
        if isUnder path mp.mountPath && best.2 < mp.mountPath.length then
          (some i, mp.mountPath.length)
        else best) (none, 0)).1

def findByMountDentry (t : MountTable) (dentry : DentryPtr) : Option ℕ :=
  (List.range maxMounts).find? fun i => (t.mounts i).any fun mp => mp.mountDentry = some dentry

end MountTable

end SimpleKernel.Filesystem
