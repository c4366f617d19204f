import SimpleKernel.Model.Filesystem.Mounts

/-! The virtual file system: it keeps a tree of directory entries for each mounted file system and
fills it on demand. -/

namespace SimpleKernel.Filesystem

/-- `allocated` are the directory entries in memory, and `supply` is what the allocator will answer:
an address, or `none` if there is no memory. -/
structure Vfs (σ : Type) where
  initialized : Bool := false
  mountTable : MountTable := {}
  rootDentry : Option DentryPtr := none
  dentries : DentryPtr → Dentry := fun _ => {}
  allocated : List DentryPtr := []
  files : List OpenFile := []
  fileSystems : FsPtr → σ
  supply : List (Option DentryPtr) := []

namespace Vfs

variable {σ : Type} (ops : FileSystem σ)

/-! ## Directory entries -/

def setDentry (v : Vfs σ) (d : DentryPtr) (f : Dentry → Dentry) : Vfs σ :=
  { v with dentries := Function.update v.dentries d (f (v.dentries d)) }

def setFs (v : Vfs σ) (f : FsPtr) (fs : σ) : Vfs σ :=
  { v with fileSystems := Function.update v.fileSystems f fs }

def typeOf (v : Vfs σ) (i : InodeRef) : FileType := ops.type (v.fileSystems i.fs) i.ptr

def hasOps (v : Vfs σ) (i : InodeRef) : Bool := ops.hasOps (v.fileSystems i.fs) i.ptr

/-- The inode is a directory; a null pointer is none. -/
def isDirectory (v : Vfs σ) (i : Option InodeRef) : Bool := i.any fun i => v.typeOf ops i = .directory

/-- `make_unique` of a directory entry. The allocator returns no address that is in use. -/
def allocDentry (v : Vfs σ) : Option DentryPtr × Vfs σ :=
  match v.supply with
  | [] => (none, v)
  | none :: rest => (none, { v with supply := rest })
  | some d :: rest =>
    if d ∈ v.allocated then (none, { v with supply := rest })
    else
      (some d, { v with
        dentries := Function.update v.dentries d {}
        allocated := d :: v.allocated
        supply := rest })

def freeDentry (v : Vfs σ) (d : DentryPtr) : Vfs σ := { v with allocated := v.allocated.erase d }

/-- The loop of `FindChild`, over `n` entries at most. -/
def findFrom (v : Vfs σ) (name : CString) : ℕ → Option DentryPtr → Option DentryPtr
  | 0, _ => none
  | _ + 1, none => none
  | n + 1, some child =>
    if (v.dentries child).name = name then some child
    else findFrom v name n (v.dentries child).nextSibling

/-- `FindChild`. No list of children has more members than there are entries. -/
def findChild (v : Vfs σ) (parent : DentryPtr) (name : CString) : Option DentryPtr :=
  v.findFrom name v.allocated.length (v.dentries parent).children

def addChild (v : Vfs σ) (parent child : DentryPtr) : Vfs σ :=
  let v := v.setDentry child fun d =>
    { d with parent := some parent, nextSibling := (v.dentries parent).children }
  v.setDentry parent fun d => { d with children := some child }

/-- A pointer to a child: the field `children` or `next_sibling` of an entry. -/
inductive Link where
  | children (d : DentryPtr)
  | nextSibling (d : DentryPtr)

def readLink (v : Vfs σ) : Link → Option DentryPtr
  | .children d => (v.dentries d).children
  | .nextSibling d => (v.dentries d).nextSibling

def writeLink (v : Vfs σ) (value : Option DentryPtr) : Link → Vfs σ
  | .children d => v.setDentry d fun e => { e with children := value }
  | .nextSibling d => v.setDentry d fun e => { e with nextSibling := value }

/-- The loop of `RemoveChild`, over `n` links at most. -/
def removeFrom (child : DentryPtr) : ℕ → Link → Vfs σ → Vfs σ
  | 0, _, v => v
  | n + 1, current, v =>
    match v.readLink current with
    | none => v
    | some d =>
      if d = child then
        (v.writeLink (v.dentries child).nextSibling current).setDentry child fun e =>
          { e with parent := none, nextSibling := none }
      else removeFrom child n (.nextSibling d) v

def removeChild (v : Vfs σ) (parent child : DentryPtr) : Vfs σ :=
  removeFrom child v.allocated.length (.children parent) v

def addDentry (v : Vfs σ) (parent : DentryPtr) (name : CString) (inode : Option InodeRef) :
    Option DentryPtr × Vfs σ :=
  match v.allocDentry with
  | (none, v) => (none, v)
  | (some d, v) =>
    (some d, (v.setDentry d fun e => { e with name := name.take 255, inode }).addChild parent d)

/-- The entry is taken out of the tree, and freed unless a file is open. -/
def dropDentry (v : Vfs σ) (parent target : DentryPtr) : Vfs σ :=
  let v := v.removeChild parent target
  if 0 < (v.dentries target).refCount then
    v.setDentry target fun e => { e with deleted := true, inode := none }
  else v.freeDentry target

/-! ## Mounting -/

def init (v : Vfs σ) : Vfs σ := { v with initialized := true }

/-- The end of `Mount`: the mount point gets a free slot. -/
def fillSlot (v : Vfs σ) (mp : MountPoint) : Expected Unit × Vfs σ :=
  match v.mountTable.freeSlot with
  | none =>
    let v := v.setFs mp.filesystem (ops.unmount (v.fileSystems mp.filesystem)).2
    (.error .fsMountFailed, v.freeDentry mp.rootDentry)
  | some slot =>
    let table : MountTable := { v.mountTable with
      mounts := Function.update v.mountTable.mounts slot (some mp)
      mountCount := v.mountTable.mountCount + 1 }
    if mp.mountPath = [slash] then
      (.ok (), { v with
        mountTable := { table with rootMount := some slot }
        rootDentry := some mp.rootDentry })
    else (.ok (), { v with mountTable := table })

/-- `Mount` from where the file system has been mounted. -/
def mountRoot (v : Vfs σ) (path : CString) (fs : FsPtr) (device : Option ℕ) (root : InodePtr) :
    Expected Unit × Vfs σ :=
  if v.typeOf ops ⟨fs, root⟩ ≠ .directory then (.error .fsCorrupted, v)
  else
    match v.allocDentry with
    | (none, v) => (.error .outOfMemory, v.setFs fs (ops.unmount (v.fileSystems fs)).2)
    | (some d, v) =>
      (v.setDentry d fun e => { e with name := [slash], inode := some ⟨fs, root⟩ }).fillSlot ops
        { mountPath := path, mountDentry := none, filesystem := fs, device, rootInode := root,
          rootDentry := d }

def mount (v : Vfs σ) (path : Option CString) (fs : Option FsPtr) (device : Option ℕ) :
    Expected Unit × Vfs σ :=
  match path, fs with
  | some path, some fs =>
    if maxMounts ≤ v.mountTable.mountCount then (.error .fsMountFailed, v)
    else if path.head? ≠ some slash then (.error .fsInvalidPath, v)
    -- only the first slots are compared
    else if (v.mountTable.findPath v.mountTable.mountCount path).isSome then
      (.error .fsAlreadyMounted, v)
    else
      match ops.mount (v.fileSystems fs) device with
      | (.error _, state) => (.error .fsMountFailed, v.setFs fs state)
      | (.ok none, state) => (.error .fsCorrupted, v.setFs fs state)
      | (.ok (some root), state) => (v.setFs fs state).mountRoot ops path fs device root
  | _, _ => (.error .invalidArgument, v)

/-- The end of `Unmount`. Of the directory entries it frees the root only. -/
def clearSlot (v : Vfs σ) (slot : ℕ) (mp : MountPoint) : Vfs σ :=
  let v := v.freeDentry mp.rootDentry
  let table : MountTable := { v.mountTable with
    mounts := Function.update v.mountTable.mounts slot none
    mountCount := v.mountTable.mountCount - 1 }
  if table.rootMount = some slot then
    { v with mountTable := { table with rootMount := none }, rootDentry := none }
  else { v with mountTable := table }

def unmount (v : Vfs σ) (path : Option CString) : Expected Unit × Vfs σ :=
  match path with
  | none => (.error .invalidArgument, v)
  | some path =>
    match v.mountTable.findPath maxMounts path with
    | none => (.error .fsNotMounted, v)
    | some slot =>
      match v.mountTable.mounts slot with
      | none => (.error .fsNotMounted, v)
      | some mp =>
        match ops.unmount (v.fileSystems mp.filesystem) with
        | (.error e, state) => (.error e, v.setFs mp.filesystem state)
        | (.ok _, state) => (.ok (), (v.setFs mp.filesystem state).clearSlot slot mp)

/-! ## Lookup -/

/-- The child with the name; if it is not in memory, the file system is asked. -/
def findOrAddChild (v : Vfs σ) (current : DentryPtr) (inode : InodeRef) (component : CString) :
    Expected DentryPtr × Vfs σ :=
  match v.findChild current component with
  | some child => (.ok child, v)
  | none =>
    if v.hasOps ops inode then
      match ops.lookup (v.fileSystems inode.fs) inode.ptr component with
      | (.error _, state) => (.error .fsFileNotFound, v.setFs inode.fs state)
      | (.ok result, state) =>
        match (v.setFs inode.fs state).addDentry current component
            (result.map fun i => ⟨inode.fs, i⟩) with
        | (none, v) => (.error .outOfMemory, v)
        | (some child, v) => (.ok child, v)
    else (.error .fsFileNotFound, v)

/-- From a child on which another file system is mounted, the walk goes on at the root of that. -/
def enter (v : Vfs σ) (mp : ℕ) (child : DentryPtr) : DentryPtr × ℕ :=
  if (v.dentries child).inode.isSome then
    match v.mountTable.findByMountDentry child with
    | some next =>
      match v.mountTable.mounts next with
      | some point => if next ≠ mp then (point.rootDentry, next) else (child, mp)
      | none => (child, mp)
    | none => (child, mp)
  else (child, mp)

def walk : List CString → DentryPtr × ℕ → Vfs σ → Expected (DentryPtr × ℕ) × Vfs σ
  | [], place, v => (.ok place, v)
  | component :: rest, (current, mp), v =>
    match (v.dentries current).inode with
    | none => (.error .fsNotADirectory, v)
    | some inode =>
      if v.typeOf ops inode ≠ .directory then (.error .fsNotADirectory, v)
      else if component = dot then walk rest (current, mp) v
      else if component = dotDot then
        walk rest ((v.dentries current).parent.getD current, mp) v
      else
        match v.findOrAddChild ops current inode component with
        | (.error e, v) => (.error e, v)
        | (.ok child, v) => walk rest (v.enter mp child) v

/-- The path is `/`, or starts with two slashes. -/
def isRootPath (path : CString) : Bool := path[1]? = none || path[1]? = some slash

/-- The components of the path behind those of the mount path. -/
def remaining (mountPath path : CString) : List CString :=
  if mountPath ≠ [slash] then (components path).drop (components mountPath).length
  else components path

/-- `Lookup`, with the mount point that it ends in. -/
def resolve (v : Vfs σ) (path : Option CString) : Expected (DentryPtr × Option ℕ) × Vfs σ :=
  if !v.initialized then (.error .fsNotMounted, v)
  else
    match path with
    | none => (.error .invalidArgument, v)
    | some path =>
      if path.head? ≠ some slash then (.error .invalidArgument, v)
      else if isRootPath path then
        match v.rootDentry with
        | none => (.error .fsNotMounted, v)
        | some root => (.ok (root, v.mountTable.rootMount), v)
      else
        match v.mountTable.lookup path with
        | none => (.error .fsNotMounted, v)
        | some slot =>
          match v.mountTable.mounts slot with
          | none => (.error .fsNotMounted, v)
          | some mp =>
            (walk ops (remaining mp.mountPath path) (mp.rootDentry, slot) v).map
              (·.map fun place => (place.1, some place.2)) id

def lookup (v : Vfs σ) (path : Option CString) : Expected DentryPtr × Vfs σ :=
  (v.resolve ops path).map (·.map Prod.fst) id

/-! ## Open and Close -/

/-- How `Open` and `MkDir` make a new name with the operation `op`; only `MkDir` looks first if the
name is in memory. -/
def makeEntry (checks : Bool)
    (op : σ → InodePtr → CString → Expected (Option InodePtr) × σ) (v : Vfs σ) (path : CString) :
    Expected DentryPtr × Vfs σ :=
  match splitChecked path with
  | none => (.error .fsInvalidPath, v)
  | some (parentPath, name) =>
    match v.lookup ops (some parentPath) with
    | (.error e, v) => (.error e, v)
    | (.ok parent, v) =>
      match (v.dentries parent).inode with
      | none => (.error .fsNotADirectory, v)
      | some inode =>
        if v.typeOf ops inode ≠ .directory then (.error .fsNotADirectory, v)
        else if checks && (v.findChild parent name).isSome then (.error .fsFileExists, v)
        else if !v.hasOps ops inode then (.error .deviceNotSupported, v)
        else
          match op (v.fileSystems inode.fs) inode.ptr name with
          | (.error e, state) => (.error e, v.setFs inode.fs state)
          | (.ok new, state) =>
            match (v.setFs inode.fs state).addDentry parent name
                (new.map fun i => ⟨inode.fs, i⟩) with
            | (none, v) => (.error .outOfMemory, v)
            | (some d, v) => (.ok d, v)

/-- The part of `Open` that creates a file. -/
def createFile (v : Vfs σ) (path : CString) : Expected DentryPtr × Vfs σ :=
  makeEntry ops false (fun fs dir name => ops.create fs dir name .regular) v path

/-- The part of `Open` that makes the `File`, at the address `file` if there is memory. -/
def openDentry (v : Vfs σ) (dentry : DentryPtr) (flags : BitVec 32) (file : Option FilePtr) :
    Expected FilePtr × Vfs σ :=
  match (v.dentries dentry).inode with
  | none => (.error .fsCorrupted, v)
  | some inode =>
    if flags &&& oDirectory ≠ 0 ∧ v.typeOf ops inode ≠ .directory then (.error .fsNotADirectory, v)
    else
      match file with
      | none => (.error .outOfMemory, v)
      | some ptr =>
        if ptr ∈ v.files.map OpenFile.ptr then (.error .outOfMemory, v)
        else
          match ops.openFile (v.fileSystems inode.fs) inode.ptr flags with
          | (.error e, state) => (.error e, v.setFs inode.fs state)
          | (.ok _, state) =>
            let v := (v.setFs inode.fs state).setDentry dentry fun e =>
              { e with refCount := (e.refCount + 1) % 2 ^ 32 }
            (.ok ptr, { v with files := ⟨ptr, inode, dentry, flags⟩ :: v.files })

def openFile (v : Vfs σ) (path : Option CString) (flags : BitVec 32) (file : Option FilePtr) :
    Expected FilePtr × Vfs σ :=
  if !v.initialized then (.error .fsNotMounted, v)
  else
    match path with
    | none => (.error .invalidArgument, v)
    | some path =>
      if maxPathLength ≤ path.length then (.error .fsInvalidPath, v)
      else
        match v.lookup ops (some path) with
        | (.ok dentry, v) => v.openDentry ops dentry flags file
        | (.error e, v) =>
          if flags &&& oCreate = 0 then (.error e, v)
          else
            match v.createFile ops path with
            | (.error e, v) => (.error e, v)
            | (.ok dentry, v) => v.openDentry ops dentry flags file

def close (v : Vfs σ) (file : OpenFile) : Expected Unit × Vfs σ :=
  match ops.closeFile (v.fileSystems file.inode.fs) file.inode.ptr with
  | (.error e, state) => (.error e, v.setFs file.inode.fs state)
  | (.ok _, state) =>
    let v := v.setFs file.inode.fs state
    let v := if 0 < (v.dentries file.dentry).refCount then
        v.setDentry file.dentry fun e => { e with refCount := e.refCount - 1 }
      else v
    (.ok (), { v with files := v.files.erase file })

/-! ## MkDir, Unlink and RmDir -/

def mkDir (v : Vfs σ) (path : Option CString) : Expected Unit × Vfs σ :=
  match path with
  | none => (.error .invalidArgument, v)
  | some path => (makeEntry ops true ops.mkdir v path).map (·.map fun _ => ()) id

/-- How `Unlink` and `RmDir` remove a name with the operation `op`, unless `refuses` says that the
entry must stay. -/
def removeEntry (refuses : Vfs σ → Dentry → Option ErrorCode)
    (op : σ → InodePtr → CString → Expected Unit × σ) (v : Vfs σ) (path : Option CString) :
    Expected Unit × Vfs σ :=
  match path with
  | none => (.error .invalidArgument, v)
  | some path =>
    match v.lookup ops (some (splitCut path).1) with
    | (.error e, v) => (.error e, v)
    | (.ok parent, v) =>
      match (v.dentries parent).inode with
      | none => (.error .fsCorrupted, v)
      | some inode =>
        match v.findChild parent (splitCut path).2 with
        | none => (.error .fsFileNotFound, v)
        | some target =>
          match refuses v (v.dentries target) with
          | some e => (.error e, v)
          | none =>
            if !v.hasOps ops inode then (.error .deviceNotSupported, v)
            else
              match op (v.fileSystems inode.fs) inode.ptr (splitCut path).2 with
              | (.error e, state) => (.error e, v.setFs inode.fs state)
              | (.ok _, state) => (.ok (), (v.setFs inode.fs state).dropDentry parent target)

/-- `Unlink` does not remove a directory. -/
def unlink (v : Vfs σ) (path : Option CString) : Expected Unit × Vfs σ :=
  removeEntry ops (fun v target =>
    match target.inode with
    | none => some .fsCorrupted
    | some i => if v.typeOf ops i = .directory then some .fsIsADirectory else none) ops.unlink v path

/-- `RmDir` does not remove a directory that has a child in memory. -/
def rmDir (v : Vfs σ) (path : Option CString) : Expected Unit × Vfs σ :=
  removeEntry ops (fun v target =>
    if !v.isDirectory ops target.inode then some .fsNotADirectory
    else if target.children ≠ none then some .fsNotEmpty
    else none) ops.rmdir v path

end Vfs

/-! ## Runs -/

/-- A call, with the answers of the allocator. A file is closed while it is open. -/
inductive VfsCall where
  | init
  | mount (path : Option CString) (fs : Option FsPtr) (device : Option ℕ)
      (supply : List (Option DentryPtr))
  | unmount (path : Option CString)
  | lookup (path : Option CString) (supply : List (Option DentryPtr))
  | openFile (path : Option CString) (flags : BitVec 32) (file : Option FilePtr)
      (supply : List (Option DentryPtr))
  | close (file : FilePtr)
  | mkDir (path : Option CString) (supply : List (Option DentryPtr))
  | unlink (path : Option CString) (supply : List (Option DentryPtr))
  | rmDir (path : Option CString) (supply : List (Option DentryPtr))

def Vfs.step {σ : Type} (ops : FileSystem σ) (v : Vfs σ) : VfsCall → Option (Vfs σ)
  | .init => some v.init
  | .mount path fs device supply => some ({ v with supply }.mount ops path fs device).2
  | .unmount path => some (v.unmount ops path).2
  | .lookup path supply => some ({ v with supply }.lookup ops path).2
  | .openFile path flags file supply => some ({ v with supply }.openFile ops path flags file).2
  | .close file => (v.files.find? fun f => f.ptr = file).map fun f => (v.close ops f).2
  | .mkDir path supply => some ({ v with supply }.mkDir ops path).2
  | .unlink path supply => some ({ v with supply }.unlink ops path).2
  | .rmDir path supply => some ({ v with supply }.rmDir ops path).2

/-- The runs from the start of the kernel, with the file systems in the state `fileSystems`. -/
def vfsSystem {σ : Type} (ops : FileSystem σ) (fileSystems : FsPtr → σ) :
    Transition (Vfs σ) VfsCall where
  init v := v = { fileSystems }
  step := Vfs.step ops

end SimpleKernel.Filesystem
