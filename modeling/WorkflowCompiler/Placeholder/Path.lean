import WorkflowCompiler.Placeholder.Scan

/-!
# Paths

A path is a list of segments separated by points. It names either a field of the outputs of a
step, as `output.step.field` or `step.outputs.field`, or a variable or builtin by its first
segment, and then a field inside its value.

* `Referent.ofPath` — what a path names when it is resolved; the blanks around a segment do
  not count;
* `isOutputReference` — whether the path is spelled like a reference to outputs, with the
  segments taken as they stand.
-/

namespace WorkflowCompiler

/-- What a path names. -/
inductive Referent where
  /-- the outputs of a step, or a field inside them -/
  | output (step : String) (fields : List String)
  /-- a variable or builtin, or a field inside its value -/
  | binding (root : String) (fields : List String)
deriving DecidableEq

namespace Path

/-- The segments of a path as they stand. -/
def segments (path : String) : List String := Text.split '.' path

/-- The segments of a path without the blanks around them. -/
def trimmedSegments (path : String) : List String := (segments path).map Text.trim

/-- The first segment of a path as it stands. -/
def root (path : String) : String := (segments path).headD ""

/-- The path is spelled like a reference to the outputs of a step. -/
def isOutputReference (path : String) : Bool :=
  match segments path with
  | first :: second :: _ => first = "output" || second = "outputs"
  | _ => false

end Path

/-- What the segments of a path name. -/
def Referent.ofSegments : List String → Referent
  | [] => .binding "" []
  | [root] => .binding root []
  | first :: second :: rest =>
    if first = "output" then .output second rest
    else if second = "outputs" then .output first rest
    else .binding first (second :: rest)

/-- What a path names. -/
def Referent.ofPath (path : String) : Referent := .ofSegments (Path.trimmedSegments path)

/-- The first segment of a placeholder's path as it stands. -/
def Placeholder.root (p : Placeholder) : String := Path.root p.path

/-- The placeholder is spelled like a reference to the outputs of a step. -/
def Placeholder.isOutputReference (p : Placeholder) : Bool := Path.isOutputReference p.path

end WorkflowCompiler
