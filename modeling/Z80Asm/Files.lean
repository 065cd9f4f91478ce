import Z80Asm.Error.Cause

/-!
# Files

A file system as a value: files with their contents, the directory that relative paths start from,
and the directories that were made for files. A file that is added makes every directory that its
path passes through, also one that a `..` leaves again and that stays empty. Reading source through
such a value makes assembling a function, and the command line fills one in before it starts.

Paths are text with `/` between names. They are shown as they were put together, and two paths
lead to the same file if they walk to the same names.

Reading source asks less of a file system than that: which file a path leads to, whether there is
one, and what it holds (`FileAccess`). There two paths may lead to one file however they are spelled,
as links make them, and what is said about reading is said of any such access.
-/
set_option autoImplicit false

namespace Z80Asm

namespace Path

/-- The names of a path with empty ones where slashes meet. -/
def namesFrom (name : List Char) : List Char → List String
  | [] => [String.ofList name.reverse]
  | c :: rest =>
    if c == '/' then String.ofList name.reverse :: namesFrom [] rest
    else namesFrom (c :: name) rest

def names (path : String) : List String :=
  namesFrom [] path.toList

def isAbsolute (path : String) : Bool :=
  path.toList.head? == some '/'

/-- The path of `name` seen from a directory. -/
def join (dir name : String) : String :=
  if isAbsolute name || dir.isEmpty then name
  else if dir.toList.getLast? == some '/' then dir ++ name
  else dir ++ "/" ++ name

/-- Drops slashes and names `.` from the end of a path that is held back to front. -/
def dropIdle : List Char → List Char
  | '/' :: rest => dropIdle rest
  | '.' :: '/' :: rest => dropIdle rest
  | path => path

/-- The directory of a file, empty for the current one. -/
def directory (path : String) : String :=
  let above := dropIdle ((dropIdle path.toList.reverse).dropWhile (· != '/'))
  if above.isEmpty && isAbsolute path then "/" else String.ofList above.reverse

/-- The extension of the last name: what follows its last dot, unless the name begins with its
    only one. -/
def extension? (path : String) : Option String :=
  let name := (dropIdle path.toList.reverse).takeWhile (· != '/')
  match name.span (· != '.') with
  | (_, []) | (_, ['.']) => none
  | (back, _) => if name == ['.', '.'] then none else some (String.ofList back.reverse)

/-- The longest path, in bytes. -/
def maxLength : Nat := 4095

/-- Refuses a path that leads nowhere in any file system. -/
def check (path : String) : Except FileError Unit :=
  if path.toList.contains '\x00' then .error .nulInName
  else if path.isEmpty then .error .notFound
  else if maxLength < path.utf8ByteSize then .error .nameTooLong
  else .ok ()

end Path

/-- The names on the way to a file, outermost first. -/
abbrev FilePlace := List String

/-- The place that a name leads to, whether or not anything is there. -/
def FilePlace.enter (place : FilePlace) (name : String) : FilePlace :=
  if name.isEmpty || name == "." then place
  else if name == ".." then place.dropLast
  else place ++ [name]

/-- The places that names pass through: where they start, and where all but the last lead. -/
def FilePlace.passed (place : FilePlace) : List String → List FilePlace
  | [] => []
  | name :: rest => place :: FilePlace.passed (place.enter name) rest

/-- Files by their place, directories that were made, and the place where relative paths start. -/
structure FileSystem where
  current : FilePlace := []
  directories : List FilePlace := []
  files : List (FilePlace × List UInt8) := []
  deriving Repr, Inhabited

namespace FileSystem

def contents? (fs : FileSystem) (place : FilePlace) : Option (List UInt8) :=
  fs.files.lookup place

/-- What is around a directory or a file is a directory too. -/
def isDirectory (fs : FileSystem) (place : FilePlace) : Bool :=
  place.isPrefixOf fs.current || fs.directories.any (place.isPrefixOf ·) ||
    fs.files.any fun (file, _) => place.isPrefixOf file && file != place

/-- Sets the contents of a file. -/
def put (fs : FileSystem) (place : FilePlace) (bytes : List UInt8) : FileSystem :=
  { fs with files := (place, bytes) :: fs.files.filter (·.1 != place) }

/-- The longest name that a directory can hold, in bytes. -/
def maxName : Nat := 255

/-- Follows names from a place. What is not a directory has nothing inside. -/
def walk (fs : FileSystem) (place : FilePlace) : List String → Except FileError FilePlace
  | [] => .ok place
  | name :: rest =>
    if !fs.isDirectory place then .error .notDirectory
    else if maxName < name.utf8ByteSize then .error .nameTooLong
    else
      let next := place.enter name
      if fs.isDirectory next || (fs.contents? next).isSome then walk fs next rest
      else .error .notFound

/-- The place where a path starts. -/
def start (fs : FileSystem) (path : String) : FilePlace :=
  if Path.isAbsolute path then [] else fs.current

/-- The place that a path leads to. -/
def locate (fs : FileSystem) (path : String) : Except FileError FilePlace := do
  Path.check path
  fs.walk (fs.start path) (Path.names path)

def isFile (fs : FileSystem) (path : String) : Bool :=
  match fs.locate path with
  | .ok place => (fs.contents? place).isSome
  | .error _ => false

def read (fs : FileSystem) (path : String) : Except FileError (List UInt8) := do
  match fs.contents? (← fs.locate path) with
  | some bytes => return bytes
  | none => throw .isDirectory

/-- Creates or replaces a file. Its directory has to be there. -/
def write (fs : FileSystem) (path : String) (bytes : List UInt8) :
    Except FileError FileSystem := do
  Path.check path
  let names := Path.names path
  let trailing := names.getLast? == some ""
  let names := (names.reverse.dropWhile String.isEmpty).reverse
  let name := names.getLast?.getD "."
  let dir ← fs.walk (fs.start path) names.dropLast
  if !fs.isDirectory dir then throw .notDirectory
  if trailing || name == "." || name == ".." then throw .isDirectory
  if maxName < name.utf8ByteSize then throw .nameTooLong
  let place := dir ++ [name]
  if fs.isDirectory place then throw .isDirectory
  return fs.put place bytes

/-- The place that the names of a path spell, whether or not anything is there. -/
def place (fs : FileSystem) (path : String) : FilePlace :=
  (Path.names path).foldl FilePlace.enter (fs.start path)

/-- Adds a file at a path, and makes the directories that the path passes through. -/
def add (fs : FileSystem) (path : String) (bytes : List UInt8) : FileSystem :=
  let passed := (fs.start path).passed (Path.names path)
  let made := { fs with directories := passed.filter (!fs.isDirectory ·) ++ fs.directories }
  made.put (fs.place path) bytes

end FileSystem

/-- What reading source asks of files. -/
structure FileAccess where
  /-- The one place of the file that a path leads to. -/
  canonicalize : String → Except FileError FilePlace
  isFile : String → Bool
  read : String → Except FileError (List UInt8)
  /-- The places of all files. -/
  places : List FilePlace

namespace FileSystem

def access (fs : FileSystem) : FileAccess where
  canonicalize := fs.locate
  isFile := fs.isFile
  read := fs.read
  places := fs.files.map Prod.fst

instance : Coe FileSystem FileAccess :=
  ⟨access⟩

end FileSystem

instance : Inhabited FileAccess :=
  ⟨({} : FileSystem)⟩

end Z80Asm
