/-
  KernelPrep.Disk — reading and writing files.

  What touches files is written against a `Disk`, two operations in some monad.  The
  command line uses the machine's files; `FileStore` is a disk held in a value, on which
  the effect of a run can be stated and computed.

  Main definitions:
    * `FileError`       — why a file cannot be read or written;
    * `Disk`            — the operations;
    * `checkPath`       — what a path may be, whatever files there are;
    * `FileStore`       — files and directories as a value;
    * `FileStore.makeDir` — make a directory and those on the way to it;
    * `FileStore.read`, `FileStore.write` — the operations on it;
    * `FileStore.disk`  — a file store as a disk.
-/

namespace KernelPrep

/-! ## §1. Disks -/

/-- Why a file cannot be read or written. -/
inductive FileError where
  | notFound
  | permissionDenied
  | notDirectory
  | isDirectory
  | nameTooLong
  /-- A zero character stands in the path. -/
  | zeroInPath
  | other (message : String)
deriving DecidableEq, Repr

/-- The wording of the error, with its number in the operating system if it has one. -/
def FileError.message : FileError → String
  | .notFound => "No such file or directory (os error 2)"
  | .permissionDenied => "Permission denied (os error 13)"
  | .notDirectory => "Not a directory (os error 20)"
  | .isDirectory => "Is a directory (os error 21)"
  | .nameTooLong => "File name too long (os error 36)"
  | .zeroInPath => "file name contained an unexpected NUL byte"
  | .other message => message

/-- Reading and writing whole files. -/
structure Disk (m : Type → Type) where
  read : String → m (Except FileError ByteArray)
  /-- Write a file, replacing what it held. -/
  write : String → ByteArray → m (Except FileError Unit)

/-- The length of the longest path, in bytes. -/
def pathLimit : Nat := 4095

/-- The length of the longest name of a file or directory, in bytes. -/
def nameLimit : Nat := 255

/-- Refuse a path that cannot be that of a file, whatever files there are. -/
def checkPath (path : String) : Except FileError Unit := do
  if path.toList.contains (Char.ofNat 0) then throw .zeroInPath
  if path.isEmpty then throw .notFound
  if path.utf8ByteSize > pathLimit then throw .nameTooLong

/-! ## §2. File stores -/

/-- Files and directories, each by the names that lead to it from the top. -/
structure FileStore where
  files : List (List String × ByteArray) := []
  dirs : List (List String) := []
  /-- The directory from which relative paths start. -/
  workDir : List String := []
  /-- Files that are always empty and take any content without keeping it. -/
  sinks : List (List String) := []

namespace FileStore

/-- Whether names lead to a directory.  The working directory is one, and so is every
    directory on the way to it. -/
def isDir (store : FileStore) (names : List String) : Bool :=
  names.isPrefixOf store.workDir || store.dirs.contains names

/-- The content of the file that names lead to. -/
def find? (store : FileStore) (names : List String) : Option ByteArray :=
  if store.sinks.contains names then some ByteArray.empty else store.files.lookup names

/-- The store in which names lead to a file with the given content. -/
def insert (store : FileStore) (names : List String) (content : ByteArray) : FileStore :=
  if store.sinks.contains names then store
  else { store with files := (names, content) :: store.files.filter (·.1 != names) }

/-! ## §3. Paths -/

/-- The pieces of a path between its slashes, where `piece`, reversed, is the one being
    read. -/
def splitFrom (piece : List Char) : List Char → List String
  | [] => [String.ofList piece.reverse]
  | c :: rest =>
    if c = '/' then String.ofList piece.reverse :: splitFrom [] rest
    else splitFrom (c :: piece) rest

/-- The pieces of a path between its slashes. -/
def splitPath (path : String) : List String := splitFrom [] path.toList

/-- Whether a path starts at the top and not in the working directory. -/
def isAbsolute (path : String) : Bool := path.toList.head? = some '/'

/-- Whether a path ends in a slash. -/
def endsInSlash (path : String) : Bool := path.toList.getLast? = some '/'

/-- Follow the pieces of a path.  Each leads on from a directory; an empty piece and `.`
    stay in it, and `..` goes back, but not beyond the top. -/
def walk (store : FileStore) (here : List String) : List String → Except FileError (List String)
  | [] => .ok here
  | piece :: rest =>
    -- even `.` and an empty piece lead on only from a directory
    if store.isDir here then
      match piece with
      | "" | "." => walk store here rest
      | ".." => walk store here.dropLast rest
      | name =>
        if name.utf8ByteSize > nameLimit then .error .nameTooLong
        else walk store (here ++ [name]) rest
    else .error (if (store.find? here).isSome then .notDirectory else .notFound)

/-- Where a path starts. -/
def start (store : FileStore) (path : String) : List String :=
  if isAbsolute path then [] else store.workDir

/-- The names to which a path leads.  All but the last are directories, and the last is
    not one. -/
def locate (store : FileStore) (path : String) : Except FileError (List String) := do
  checkPath path
  let names ← store.walk (store.start path) (splitPath path)
  if store.isDir names then throw .isDirectory
  return names

/-- The names to which a path leads that is to be written.  A path that ends in a slash can
    only be that of a directory, whether or not there is one. -/
def locateTarget (store : FileStore) (path : String) : Except FileError (List String) := do
  if endsInSlash path then
    checkPath path
    let pieces := (splitPath path).reverse.dropWhile (·.isEmpty)
    let _ ← store.walk (store.start path) (pieces.tail.reverse ++ ["."])
    throw .isDirectory
  else store.locate path

/-- The store in which `here` is a directory, unless a file stands there. -/
def addDir (store : FileStore) (here : List String) : FileStore :=
  if store.isDir here || (store.find? here).isSome then store
  else { store with dirs := here :: store.dirs }

/-- Follow the pieces of a path and make the directories that are missing, as far as no
    file stands in the way. -/
def makeDirFrom (store : FileStore) (here : List String) : List String → FileStore
  | [] => store
  | piece :: rest =>
    match store.walk here [piece] with
    | .ok next => makeDirFrom (store.addDir next) next rest
    | .error _ => store

/-! ## §4. Reading and writing -/

/-- The content of a file. -/
def read (store : FileStore) (path : String) : Except FileError ByteArray := do
  match store.find? (← store.locate path) with
  | some content => return content
  | none => throw .notFound

/-- Write a file, whose directory must exist. -/
def write (store : FileStore) (path : String) (content : ByteArray) :
    Except FileError FileStore := do
  return store.insert (← store.locateTarget path) content

/-- Make a directory and those on the way to it, as far as that is possible. -/
def makeDir (store : FileStore) (path : String) : FileStore :=
  match checkPath path with
  | .ok () => store.makeDirFrom (store.start path) (splitPath path)
  | .error _ => store

/-- A file store as a disk; a write that fails leaves the store as it was. -/
def disk : Disk (StateM FileStore) where
  read path := fun store => (store.read path, store)
  write path content := fun store =>
    match store.write path content with
    | .ok store => (.ok (), store)
    | .error error => (.error error, store)

end FileStore

end KernelPrep
