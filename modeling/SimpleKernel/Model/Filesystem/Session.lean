import SimpleKernel.Model.Filesystem.RamFs
import SimpleKernel.Shared.Transition

/-! The use of the file system: it is mounted and unmounted, and its operations are called in any
order on the inodes that it has returned and on the files opened from them. -/

namespace SimpleKernel.Filesystem

/-- A call of an operation on inodes. A null pointer is `none`. -/
inductive Call where
  | lookup (dir : Option InodePtr) (name : Option CString)
  | create (dir : Option InodePtr) (name : Option CString) (type : FileType)
  | mkdir (dir : Option InodePtr) (name : Option CString)
  | unlink (dir : Option InodePtr) (name : Option CString)
  | rmdir (dir : Option InodePtr) (name : Option CString)
  deriving DecidableEq, Repr

namespace Call

def dir : Call → Option InodePtr
  | lookup dir _ | create dir _ _ | mkdir dir _ | unlink dir _ | rmdir dir _ => dir

def name : Call → Option CString
  | lookup _ name | create _ name _ | mkdir _ name | unlink _ name | rmdir _ name => name

/-- The type of the inode that the call creates. -/
def creates : Call → Option FileType
  | create _ _ type => some type
  | mkdir _ _ => some .directory
  | lookup _ _ | unlink _ _ | rmdir _ _ => none

/-- The answer of a call that returns no inode is `none`. -/
def exec (fs : RamFs) : Call → Expected (Option InodePtr) × RamFs
  | lookup dir name => (fs.lookup dir name, fs)
  | create dir name type => (fs.create dir name type).map (·.map some) id
  | mkdir dir name => (fs.mkdir dir name).map (·.map some) id
  | unlink dir name => (fs.unlink dir name).map (·.map fun _ => none) id
  | rmdir dir name => (fs.rmdir dir name).map (·.map fun _ => none) id

end Call

/-- `inodes` are the inodes returned since the file system was mounted, and `files` the files
opened since then. -/
structure Session where
  fs : RamFs := {}
  inodes : List InodePtr := []
  files : List File := []

inductive Operation where
  | mount (device : Option ℕ)
  | unmount
  | call (call : Call)
  | openFile (inode : InodePtr)
  | read (file : ℕ) (buf : Bool) (count : ℕ)
  | write (file : ℕ) (buf : Option (List UInt8))
  | seek (file : ℕ) (offset : ℤ) (whence : SeekWhence)
  deriving DecidableEq, Repr

namespace Session

def step (s : Session) : Operation → Option Session
  | .mount device =>
    match s.fs.mount device with
    | (.error _, fs) => some { s with fs }
    | (.ok root, fs) => some { fs, inodes := [root], files := [] }
  | .unmount =>
    match s.fs.unmount with
    | (.error _, fs) => some { s with fs }
    | (.ok _, fs) => some { fs, inodes := [], files := [] }
  | .call call =>
    if ∀ d ∈ call.dir, d ∈ s.inodes then
      match call.exec s.fs with
      | (.ok (some i), fs) => some { s with fs, inodes := i :: s.inodes }
      | (_, fs) => some { s with fs }
    else none
  | .openFile inode =>
    if inode ∈ s.inodes then some { s with files := s.files ++ [{ inode := some inode }] } else none
  | .read k buf count =>
    s.files[k]?.map fun file =>
      { s with files := s.files.set k (s.fs.read file buf count).2 }
  | .write k buf =>
    s.files[k]?.map fun file =>
      let (_, fs, file) := s.fs.write file buf
      { s with fs, files := s.files.set k file }
  | .seek k offset whence =>
    s.files[k]?.map fun file =>
      { s with files := s.files.set k (s.fs.seek file offset whence).2 }

end Session

def sessionSystem : Transition Session Operation where
  init s := s = {}
  step := Session.step

end SimpleKernel.Filesystem
