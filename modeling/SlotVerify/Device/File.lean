import SlotVerify.Device.Request
/-
  A directory of files, and files used as devices.

  `FileStore` is one directory with everything in it: files by the names that lead to them, and
  subdirectories.  `lookup` walks a path through it the way a path is walked on disk, and says which
  fault stops the walk.  Of the directories around the store nothing is known but that they are
  directories.

  A file used as a device carries out each request at once.  A read stops at the end of the file; a
  write extends it where it has to, with zeros in between, unless there is nothing to write.
  No request may begin behind the end of the longest possible file, or write there.  A directory can
  be opened for reading and made durable, but not read.
-/

namespace SlotVerify.Device

/-- What a name stands for. -/
inductive FileEntry where
  | file (contents : ByteArray)
  | directory

/-- A directory's entries, under it and under its subdirectories.  The name of an entry in a
    subdirectory begins with the subdirectory's own name and a slash. -/
structure FileStore where
  entries : List (String × FileEntry)

/-- The longest that a file can be, in bytes, unless a device says otherwise. -/
def fileSizeLimit : UInt64 := .ofNat (1 <<< 44 - 1 <<< 12)

/-- The size shown for a directory. -/
def directorySize : Nat := 4096

/-- Longest name of a file, in bytes. -/
def maxNameLength : Nat := 255

/-- A path has to be shorter than this, in bytes. -/
def pathLimit : Nat := 4096

/-! ## Faults in words and numbers -/

namespace FileFault

/-- The number that the operating system gives to a fault. -/
def number? : FileFault → Option Nat
  | .notFound => some 2
  | .other => some 5
  | .outOfMemory => some 12
  | .permissionDenied => some 13
  | .notDirectory => some 20
  | .isDirectory => some 21
  | .invalidInput => some 22
  | .fileTooLarge => some 27
  | .notSeekable => some 29
  | .readOnlyFilesystem => some 30
  | .nameTooLong => some 36
  | .unsupported => some 95
  | .unexpectedEnd => none

/-- All faults with a number. -/
def numbered : List FileFault :=
  [.notFound, .other, .outOfMemory, .permissionDenied, .notDirectory, .isDirectory, .invalidInput,
   .fileTooLarge, .notSeekable, .readOnlyFilesystem, .nameTooLong, .unsupported]

/-- The fault with a number. -/
def ofNumber (n : Nat) : FileFault := (numbered.find? (·.number? == some n)).getD .other

/-- A fault in words. -/
def text : FileFault → String
  | .notFound => "No such file or directory"
  | .other => "Input/output error"
  | .outOfMemory => "Cannot allocate memory"
  | .permissionDenied => "Permission denied"
  | .notDirectory => "Not a directory"
  | .isDirectory => "Is a directory"
  | .invalidInput => "Invalid argument"
  | .fileTooLarge => "File too large"
  | .notSeekable => "Illegal seek"
  | .readOnlyFilesystem => "Read-only file system"
  | .nameTooLong => "File name too long"
  | .unsupported => "Operation not supported"
  | .unexpectedEnd => "failed to fill whole buffer"

/-- The text shown for a fault. -/
def message (f : FileFault) : String :=
  match f.number? with
  | some n => s!"{f.text} (os error {n})"
  | none => f.text

end FileFault

/-! ## Directories -/

namespace FileStore

/-- The entry of a name. -/
def find? (s : FileStore) (name : String) : Option FileEntry :=
  (s.entries.find? (·.1 == name)).map (·.2)

/-- The same directory with other contents behind a name it already has. -/
def replace (s : FileStore) (name : String) (contents : ByteArray) : FileStore :=
  ⟨s.entries.map fun e => if e.1 == name then (name, .file contents) else e⟩

/-- Where a walk along a path stands. -/
inductive Place where
  /-- A directory around the store. -/
  | outside
  /-- The store's directory or one below it, by the components that lead there, last one first. -/
  | directory (trail : List String)
  | file (name : String) (contents : ByteArray)

/-- The directory that holds a directory. -/
def Place.parent : Place → Place
  | .directory (_ :: trail) => .directory trail
  | _ => .outside

/-- Goes on to a name in a directory of the store.  What is the beginning of an entry's name is a
    directory, too. -/
def enter (s : FileStore) (trail : List String) (c : String) : Except FileFault Place :=
  let name := "/".intercalate (c :: trail).reverse
  match s.find? name with
  | some (.file contents) => .ok (.file name contents)
  | some .directory => .ok (.directory (c :: trail))
  | none =>
    if s.entries.any fun e => e.1.startsWith (name ++ "/") then .ok (.directory (c :: trail))
    else .error .notFound

/-- Goes on by one component of a path.  Nothing leads on from a file, not even an empty one. -/
def step (s : FileStore) (here : Place) (c : String) : Except FileFault Place :=
  match here with
  | .file .. => .error .notDirectory
  | .outside | .directory _ =>
    if c = "" ∨ c = "." then .ok here
    else if c = ".." then .ok here.parent
    else if maxNameLength < c.utf8ByteSize then .error .nameTooLong
    else
      match here with
      | .directory trail => s.enter trail c
      | _ => .error .notFound

/-- The entry that a path leads to. -/
def lookup (s : FileStore) (path : String) : Except FileFault Place :=
  if path.any (· == '\x00') then .error .invalidInput
  else if pathLimit ≤ path.utf8ByteSize then .error .nameTooLong
  else if path = "" then .error .notFound
  else
    (path.splitOn "/").foldlM s.step (if path.front = '/' then .outside else .directory [])

/-- The contents of the file that a path leads to. -/
def readFile (s : FileStore) (path : String) : Except FileFault ByteArray :=
  match s.lookup path with
  | .error e => .error e
  | .ok (.file _ contents) => .ok contents
  | .ok _ => .error .isDirectory

end FileStore

/-- A file or directory opened as a device. -/
structure FileDevice where
  /-- The name in the store; `none` for directories. -/
  name : Option String
  writable : Bool
  /-- The size at the time of opening. -/
  size : Nat
  /-- No file can be longer, in bytes, and no offset behind this one can be reached. -/
  limit : UInt64

namespace FileDevice

/-- Opens what a path leads to. -/
def openPath (s : FileStore) (path : String) (writable : Bool) (limit : UInt64 := fileSizeLimit) :
    Except FileFault FileDevice :=
  match s.lookup path with
  | .error e => .error e
  | .ok (.file name contents) => .ok ⟨some name, writable, contents.size, limit⟩
  | .ok _ => if writable then .error .isDirectory else .ok ⟨none, false, directorySize, limit⟩

/-- Sets the read-only flag of a block device; other files only have to exist. -/
def setReadOnly (s : FileStore) (path : String) (_ : Bool) : Except FileFault Unit :=
  (s.lookup path).map fun _ => ()

/-- Whether the device takes the request at all. -/
def accept (d : FileDevice) : Request → Except IoError Unit
  | .write .. => if d.writable then .ok () else .error .readOnly
  | _ => .ok ()

/-- The contents after a write. -/
def written (contents : ByteArray) (offset : Nat) (data : ByteArray) : ByteArray :=
  if data.size = 0 then contents
  else Bytes.overwrite (contents ++ Bytes.zeros (offset - contents.size)) offset data

/-- The contents of the device's file, if it is one. -/
def contents? (d : FileDevice) (s : FileStore) : Option ByteArray :=
  match d.name.bind s.find? with
  | some (.file contents) => some contents
  | _ => none

/-- Carries out an accepted request. -/
def serve (s : FileStore) (d : FileDevice) : (r : Request) → FileStore × Except IoError r.Reply
  | .read offset length =>
    if d.limit.toNat < offset then (s, .error (.ofFileFault .invalidInput))
    else if length = 0 then (s, .ok ByteArray.empty)
    else
      match d.contents? s with
      | some contents => (s, .ok (Bytes.slice contents offset length))
      | none => (s, .error (.ofFileFault .isDirectory))
  | .write offset data =>
    if d.limit.toNat < offset then (s, .error (.ofFileFault .invalidInput))
    else if data.size ≠ 0 ∧ d.limit.toNat < offset + data.size then
      (s, .error (.ofFileFault .fileTooLarge))
    else
      match d.name, d.contents? s with
      | some name, some contents => (s.replace name (written contents offset data), .ok ())
      | _, _ => (s, .error (.ofFileFault .isDirectory))
  | .sync => (s, .ok ())

end FileDevice

end SlotVerify.Device
