import WorkflowCompiler.Toml.Reader
import WorkflowCompiler.Workflow.Decoding

/-!
# Workflow documents

A document is a TOML table of one of two shapes.

* With a key `meta` it describes a single workflow: what the `meta` table says about it, its
  variables and its steps. Such a document is the module of that one workflow.
* Otherwise every key bound to a table that has a list of `steps` is a workflow, named after
  its key unless it has a name of its own, and all other keys are passed over. There has to
  be at least one workflow.
-/

namespace WorkflowCompiler

/-- Why a text is not a workflow document. -/
inductive DocumentError where
  /-- the text is not TOML, or does not describe a single workflow rightly -/
  | malformed
  /-- the table of a workflow has the wrong shape -/
  | malformedWorkflow (key : String)
  /-- there is no workflow -/
  | noWorkflows
deriving DecidableEq

/-- The error in words. -/
def DocumentError.message : DocumentError → String
  | malformed => "invalid workflow document"
  | malformedWorkflow key => "workflow '" ++ key ++ "' is malformed"
  | noWorkflows =>
    "document contains no workflows (expected [meta] or a table with a `steps` array)"

/-- A document of one of the two shapes. -/
inductive Document where
  /-- a single workflow -/
  | single (w : Workflow)
  /-- workflows under their keys -/
  | module (m : Module)

namespace Document

/-- The workflows of a document. -/
def toModule : Document → Module
  | single w => .single w
  | module m => m

/-- The document describes a single workflow. -/
def isSingle : Document → Bool
  | single _ => true
  | module _ => false

/-! ## A single workflow -/

/-- What a document says about a single workflow, apart from its variables and steps. -/
structure About where
  /-- the name -/
  name : String
  /-- what it is for -/
  description : Option String
  /-- the version of the document -/
  version : Option String
  /-- its runs are not kept -/
  ephemeral : Bool

/-- The fields of the description of a single workflow. -/
def About.fieldNames : List String := ["name", "description", "version", "ephemeral"]

/-- Reads the description of a single workflow. -/
def About.ofDatum? (d : Datum) : Option About := do
  let fields ← d.record? About.fieldNames
  let name ← Datum.orDefault? fields "name" "" Datum.text?
  let description ← Datum.optional? fields "description" Datum.text?
  let version ← Datum.optional? fields "version" Datum.text?
  let ephemeral ← Datum.orDefault? fields "ephemeral" false Datum.bool?
  pure { name, description, version, ephemeral }

/-- Reads a document that describes a single workflow. -/
def readSingle? (table : Fields Datum) : Option Workflow := do
  let about ← Datum.required? table "meta" About.ofDatum?
  let vars ←
    Datum.orDefault? table "variables" [] (Datum.tableOf? (Variable.ofDatum? .toml))
  let steps ← Datum.orDefault? table "steps" [] stepList?
  pure
    { name := about.name, description := about.description, vars, steps,
      ephemeral := about.ephemeral }

/-! ## Several workflows -/

/-- The value is a table with a list of steps. -/
def isWorkflowTable : Datum → Bool
  | .table fields =>
    match Fields.get? fields "steps" with
    | some (.list _) => true
    | _ => false
  | _ => false

/-- Reads the workflow of a key. -/
def readWorkflow (key : String) (d : Datum) : Except DocumentError Workflow :=
  match Workflow.ofDatum? .toml d with
  | some w => .ok (if Text.allBlank w.name then { w with name := key } else w)
  | none => .error (.malformedWorkflow key)

/-- Reads the workflows of a table, in order, up to the first that has the wrong shape. -/
def readWorkflows : Fields Datum → Except DocumentError (Fields Workflow)
  | [] => .ok []
  | (key, d) :: rest =>
    if isWorkflowTable d then do
      let w ← readWorkflow key d
      let ws ← readWorkflows rest
      pure ((key, w) :: ws)
    else readWorkflows rest

/-! ## Documents -/

/-- Reads a document from its table. -/
def ofTable (table : Fields Datum) : Except DocumentError Document :=
  if table.has "meta" then
    match readSingle? table with
    | some w => .ok (.single w)
    | none => .error .malformed
  else do
    match ← readWorkflows table with
    | [] => .error .noWorkflows
    | workflows => pure (.module { workflows })

/-- Reads a document from its text. -/
def read (text : String) : Except DocumentError Document :=
  match Toml.read? text with
  | some table => ofTable table
  | none => .error .malformed

end Document

/-- Reads the module that a text describes. -/
def Module.read (text : String) : Except DocumentError Module :=
  (Document.read text).map Document.toModule

end WorkflowCompiler
