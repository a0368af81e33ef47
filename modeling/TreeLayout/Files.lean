import TreeLayout.Path

/-!
# Files

The files below a directory as a value: names relative to the directory and contents. Directories
exist as far as files lie in them. A path is followed piece by piece from the directory. Of what lies
outside only files of the system are known, by their full paths: they can be read, and nobody can
write them.
-/

namespace TreeLayout

/-- Why a file cannot be read or written. -/
inductive FileError where
  /-- There is nothing with this name. -/
  | notFound
  /-- A file stands where a directory is needed. -/
  | notDirectory
  /-- A directory stands where a file is needed. -/
  | isDirectory
  /-- A name has more bytes than a name can have. -/
  | nameTooLong
  /-- The path has a character that no name can have. -/
  | nulInPath
  /-- The file may not be written. -/
  | denied
  /-- The system lets nobody write the file. -/
  | notPermitted
  deriving DecidableEq

/-- The text of a fault. -/
def FileError.message : FileError → String
  | .notFound => "No such file or directory (os error 2)"
  | .notDirectory => "Not a directory (os error 20)"
  | .isDirectory => "Is a directory (os error 21)"
  | .nameTooLong => "File name too long (os error 36)"
  | .nulInPath => "file name contained an unexpected NUL byte"
  | .denied => "Permission denied (os error 13)"
  | .notPermitted => "Operation not permitted (os error 1)"

/-- The files below a directory, and files of the system outside of it. -/
structure Files where
  /-- The names, relative to the directory, and the contents. -/
  entries : List (String × String)
  /-- The names of the files that may be read but not written. -/
  readOnly : List String := []
  /-- The full paths and the contents of files of the system. -/
  system : List (String × String) := []

/-- What a path leads to. -/
inductive Place where
  /-- The end of a way of names from the directory. -/
  | inside (names : List String)
  /-- A directory that the directory lies below. -/
  | outside

/-- What a file is known by, whatever path leads to it. -/
inductive FileId where
  /-- A file below the directory, by the way to it. -/
  | below (names : List String)
  /-- A file of the system, by its full path. -/
  | system (path : String)

namespace Files

/-- The number of bytes that a name can have. -/
def nameBound : Nat := 255

/-- The names on the way to a file. -/
def namesOf (file : String) : List String :=
  (file.splitOn "/").filter fun piece => !piece.isEmpty && piece != "."

/-- The content of the file at the end of a way. -/
def contentAt? (fs : Files) (names : List String) : Option String :=
  (fs.entries.find? fun (file, _) => namesOf file == names).map (·.2)

/-- Whether there is a directory at the end of a way. -/
def isDirAt (fs : Files) (names : List String) : Bool :=
  names.isEmpty || fs.entries.any fun (file, _) =>
    let way := namesOf file
    names.isPrefixOf way && decide (names.length < way.length)

/-- The place that the pieces of a path lead to from a place that is a directory. -/
def follow (fs : Files) : Place → List String → Except FileError Place
  | place, [] => .ok place
  | place, piece :: rest =>
    if piece.isEmpty || piece == "." then fs.follow place rest
    else if piece == ".." then
      match place with
      | .inside (name :: names) => fs.follow (.inside (name :: names).dropLast) rest
      | _ => fs.follow .outside rest
    else if piece.utf8ByteSize > nameBound then .error .nameTooLong
    else
      match place with
      | .outside => .error .notFound
      | .inside dir =>
        let next := dir ++ [piece]
        if fs.isDirAt next then fs.follow (.inside next) rest
        else if (fs.contentAt? next).isNone then .error .notFound
        else if rest.isEmpty then .ok (.inside next)
        else .error .notDirectory

/-- The place that a path leads to. -/
def resolve (fs : Files) (path : String) : Except FileError Place :=
  if path.contains '\x00' then .error .nulInPath
  else if path.isEmpty then .error .notFound
  else fs.follow (if Path.isAbsolute path then .outside else .inside []) (path.splitOn "/")

/-- The way to a file and its content. -/
def locate (fs : Files) (path : String) : Except FileError (List String × String) :=
  match fs.resolve path with
  | .error e => .error e
  | .ok .outside => .error .isDirectory
  | .ok (.inside names) =>
    match fs.contentAt? names with
    | some content => .ok (names, content)
    | none => .error .isDirectory

/-- The content of the file of the system that a path names in full. -/
def systemContent? (fs : Files) (path : String) : Option String :=
  if Path.isAbsolute path then fs.system.lookup path else none

/-- The file to which a path leads, with its content. -/
def find (fs : Files) (path : String) : Except FileError (FileId × String) :=
  match fs.systemContent? path with
  | some content => .ok (.system path, content)
  | none => (fs.locate path).map fun (names, content) => (.below names, content)

/-- The content of a file. -/
def read (fs : Files) (path : String) : Except FileError String := (fs.find path).map (·.2)

/-- Whether a path leads to a file or a directory. -/
def contains (fs : Files) (path : String) : Bool :=
  (fs.systemContent? path).isSome || (fs.resolve path).isOk

/-- Whether a path leads to a file. -/
def isFile (fs : Files) (path : String) : Bool := (fs.find path).isOk

/-- Whether a path leads to a directory. -/
def isDir (fs : Files) (path : String) : Bool :=
  fs.contains path && !fs.isFile path

/-- The names in a directory, in alphabetical order. -/
def namesIn (fs : Files) (path : String) : List String :=
  match fs.resolve path with
  | .ok (.inside dir) =>
    let names := fs.entries.filterMap fun (file, _) =>
      let way := namesOf file
      if dir.isPrefixOf way then way[dir.length]? else none
    names.eraseDups.mergeSort fun a b => decide (a ≤ b)
  | _ => []

/-- The greatest number of names on the way to a file. -/
def depth (fs : Files) : Nat :=
  (fs.entries.map fun (file, _) => (namesOf file).length).foldl max 0

/-- The files with a new content for one of them. -/
def write (fs : Files) (path content : String) : Except FileError Files :=
  if (fs.systemContent? path).isSome then .error .notPermitted
  else do
    let (names, _) ← fs.locate path
    if fs.readOnly.any fun file => namesOf file == names then .error .denied
    else
      .ok { fs with
        entries := fs.entries.map fun (file, old) =>
          if namesOf file == names then (file, content) else (file, old) }

/-- The files whose content differs from what it was before. -/
def changedSince (fs before : Files) : List (String × String) :=
  fs.entries.filter fun (file, content) => before.entries.lookup file != some content

end Files

end TreeLayout
