import WorkflowCompiler.FilePath
import WorkflowCompiler.Text.Blank

/-!
# References to workflows

A step refers to another workflow by a text of one of three forms: `.name` is a workflow of
the same document, `file` is the workflow that stands for another document, and `file#name`
is a workflow of another document. Two references to a workflow of one name are to the same
workflow when the paths of their files have the same normal form: `Reference.key` is equal
for both.
-/

namespace WorkflowCompiler

/-- A reference to a workflow. -/
inductive Reference where
  /-- a workflow of the same document -/
  | sibling (name : String)
  /-- a workflow of another document -/
  | file (file : String) (workflow : Option String)
deriving DecidableEq

namespace Reference

/-- The reference that a text spells. -/
def read (text : String) : Reference :=
  let text := Text.trim text
  match text.toList with
  | '.' :: name => .sibling (String.ofList name)
  | _ =>
    match Text.cutAt? '#' text with
    | some (name, workflow) => .file name (some workflow)
    | none => .file text none

/-- The text that stands for a workflow of a file, whatever spelling its path has. -/
def key (file workflow : String) : String := (FilePath.normalize file).text ++ "#" ++ workflow

end Reference

end WorkflowCompiler
