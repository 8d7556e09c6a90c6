import WorkflowCompiler.FilePath

/-!
# Files and directories

A `Disk` is a finite tree of files and directories with a working directory in it. A path is
looked up one component after the other, and each time the place reached so far has to be a
directory; a slash at the end of a path asks for a directory as well. The contents of a file
are a text if their bytes are UTF-8, and of other contents nothing is known.

* `locate` — where a path leads, if something is there;
* `isFile`, `readText` — what is there;
* `writeText` — puts a text in the place of a path.
-/

namespace WorkflowCompiler

/-- Why a file could not be read or written. -/
inductive FileError where
  /-- nothing is there -/
  | notFound
  /-- a component before the last one is no directory -/
  | notDirectory
  /-- a directory is there -/
  | isDirectory
  /-- the contents are not UTF-8 -/
  | notText
  /-- the file may not be read -/
  | denied
  /-- the path holds a character that no path may hold -/
  | badName
  /-- a component is longer than 255 bytes, or the path longer than 4095 -/
  | tooLong
deriving DecidableEq

/-- The error in words. -/
def FileError.message : FileError → String
  | notFound => "No such file or directory (os error 2)"
  | notDirectory => "Not a directory (os error 20)"
  | isDirectory => "Is a directory (os error 21)"
  | notText => "stream did not contain valid UTF-8"
  | denied => "Permission denied (os error 13)"
  | badName => "file name contained an unexpected NUL byte"
  | tooLong => "File name too long (os error 36)"

/-- What a file holds. -/
inductive Contents where
  /-- a text -/
  | text (s : String)
  /-- bytes that are not UTF-8 -/
  | other
  /-- bytes that may not be read -/
  | hidden
deriving DecidableEq

/-- What bytes hold. -/
def Contents.ofBytes (bytes : ByteArray) : Contents :=
  match String.fromUTF8? bytes with
  | some s => text s
  | none => other

/-- What stands at a place. -/
inductive Entry where
  /-- a file -/
  | file (contents : Contents)
  /-- a directory -/
  | directory
deriving DecidableEq

/-- A place: the names on the way to it from the root. -/
abbrev Place := List String

/-- The place that a component leads to. -/
def Place.next (place : Place) (c : String) : Place :=
  if c = "." then place else if c = ".." then place.dropLast else place ++ [c]

/-- The places on the way of components, whatever stands there. -/
def Place.way (place : Place) : List String → List Place
  | [] => [place]
  | c :: rest => place :: Place.way (Place.next place c) rest

/-- Files and directories, and the directory from which relative paths are taken. -/
structure Disk where
  /-- the working directory -/
  cwd : Place := []
  /-- what stands where; the directories around an entry need none of their own -/
  entries : List (Place × Entry) := []

namespace Disk

/-- The entry of a place itself. -/
def entryAt? (d : Disk) (place : Place) : Option Entry := d.entries.lookup place

/-- What stands at a place. Around the working directory and around every entry there are
directories. -/
def at? (d : Disk) (place : Place) : Option Entry :=
  match d.entryAt? place with
  | some entry => some entry
  | none =>
    if place.isPrefixOf d.cwd || d.entries.any fun e => place.isPrefixOf e.1 then some .directory
    else none

/-- The working directory as a path. -/
def cwdPath (d : Disk) : String := "/" ++ Text.joined "/" d.cwd

/-- Where components lead from a place on, each place on the way being a directory. The last
name need not be there. -/
def follow (d : Disk) : Place → List String → Except FileError Place
  | place, [] => .ok place
  | place, c :: rest =>
    match d.at? place with
    | none => .error .notFound
    | some (.file _) => .error .notDirectory
    | some .directory =>
      if 255 < c.utf8ByteSize then .error .tooLong else d.follow (Place.next place c) rest

/-- The components that a path is looked up by; a slash at its end asks for a directory. -/
def lookupParts (path : String) : List String :=
  (Text.split '/' path).filter (· ≠ "") ++ if FilePath.endsWithSlash path then ["."] else []

/-- The place from which a path is looked up. -/
def start (d : Disk) (path : String) : Place := if FilePath.isAbsolute path then [] else d.cwd

/-- The places on the way of a path. Looking it up depends on what stands there only. -/
def placesOf (d : Disk) (path : String) : List Place := Place.way (d.start path) (lookupParts path)

/-- Why a path cannot be looked up anywhere. -/
def pathFault? (path : String) : Option FileError :=
  if path.toList.contains '\x00' then some .badName
  else if path = "" then some .notFound
  else if 4096 ≤ path.utf8ByteSize then some .tooLong
  else none

/-- The place a path leads to, whether something is there or not. -/
def target (d : Disk) (path : String) : Except FileError Place :=
  match pathFault? path with
  | some e => .error e
  | none => d.follow (d.start path) (lookupParts path)

/-- What a path leads to. -/
def locate (d : Disk) (path : String) : Except FileError Entry := do
  let place ← d.target path
  match d.at? place with
  | some entry => pure entry
  | none => .error .notFound

/-- A file is there. -/
def isFile (d : Disk) (path : String) : Bool :=
  match d.locate path with
  | .ok (.file _) => true
  | _ => false

/-- The text of the file that a path leads to. -/
def readText (d : Disk) (path : String) : Except FileError String := do
  match ← d.locate path with
  | .directory => .error .isDirectory
  | .file .other => .error .notText
  | .file .hidden => .error .denied
  | .file (.text s) => pure s

/-- The disk with a text file at a place. -/
def put (d : Disk) (place : Place) (text : String) : Disk :=
  { d with entries := (place, .file (.text text)) :: d.entries.filter (·.1 ≠ place) }

/-- Puts a file with a text in the place that a path leads to. The directory around it has to
be there, and a path that ends with a slash or with points names a directory. -/
def writeText (d : Disk) (path text : String) : Except FileError Disk :=
  match pathFault? path with
  | some e => .error e
  | none => do
    let names := (Text.split '/' path).filter (· ≠ "")
    let place ← d.follow (d.start path) names
    let last := names.getLastD "."
    if FilePath.endsWithSlash path || last = "." || last = ".." then .error .isDirectory
    else
      match d.at? place with
      | some .directory => .error .isDirectory
      | _ => pure (d.put place text)

end Disk

end WorkflowCompiler
