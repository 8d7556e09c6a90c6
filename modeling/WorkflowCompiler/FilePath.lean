import WorkflowCompiler.Text.Split

/-!
# Paths of files

A path is a text in which slashes separate components. `components` reads it: repeated
slashes count as one, a component of one point stands for where the path has got to, and one
of two points for the directory around it. A path that starts with a slash is absolute.

* `normalize` — the path without single points, every pair of points taking away the name
  before it; pairs that find no name stay at the start of a relative path and are dropped at
  the start of an absolute one;
* `join` — a path taken from a directory on; an absolute path stays as it is.
-/

namespace WorkflowCompiler

/-- A component of a path. -/
inductive PathPart where
  /-- the root directory -/
  | root
  /-- the directory that has been reached -/
  | here
  /-- the directory around it -/
  | up
  /-- a name inside it -/
  | name (s : String)
deriving DecidableEq

namespace FilePath

/-- A component of its text. -/
def partOf (s : String) : PathPart :=
  if s = "." then .here else if s = ".." then .up else .name s

/-- The path starts at the root. -/
def isAbsolute (path : String) : Bool :=
  match path.toList with
  | '/' :: _ => true
  | _ => false

/-- The path ends with a slash. -/
def endsWithSlash (path : String) : Bool := path.toList.getLast? = some '/'

/-- The components of a path. -/
def components (path : String) : List PathPart :=
  (if isAbsolute path then [.root] else []) ++
    ((Text.split '/' path).filter (· ≠ "")).map partOf

/-- A path without single points, in which pairs of points stand at the start only. -/
structure Normal where
  /-- it starts at the root -/
  absolute : Bool := false
  /-- its components, the last one first -/
  parts : List String := []
deriving DecidableEq

/-- Goes on along one component. -/
def Normal.push (n : Normal) : PathPart → Normal
  | .root => { absolute := true, parts := [] }
  | .here => n
  | .name s => { n with parts := s :: n.parts }
  | .up =>
    match n.parts with
    | [] => if n.absolute then n else { n with parts := [".."] }
    | s :: rest =>
      if s = ".." then { n with parts := ".." :: s :: rest } else { n with parts := rest }

/-- The normal form of components. -/
def ofComponents (parts : List PathPart) : Normal := parts.foldl Normal.push {}

/-- The normal form of a path. -/
def normalize (path : String) : Normal := ofComponents (components path)

/-- A normal path as a text. -/
def Normal.text (n : Normal) : String :=
  (if n.absolute then "/" else "") ++ Text.joined "/" n.parts.reverse

/-- The path from a directory on. -/
def join (directory path : String) : String :=
  if isAbsolute path then path
  else if directory = "" || endsWithSlash directory then directory ++ path
  else directory ++ "/" ++ path

/-- The name at the end of a path, unless it ends in the root or a pair of points. -/
def fileName? (path : String) : Option String :=
  match ((components path).filter (· ≠ .here)).getLast? with
  | some (.name s) => some s
  | _ => none

end FilePath

end WorkflowCompiler
