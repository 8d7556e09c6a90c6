import WorkflowCompiler.Attempt
import WorkflowCompiler.Calendar
import WorkflowCompiler.Context.Basic
import WorkflowCompiler.Placeholder.Path

/-!
# Resolving a path

A path is resolved in a session to a value, or it is left for later. Resolving changes
nothing in a context but the outputs that are known: what the look-up reports of a finished
step is kept, and the look-up is not asked for that step again.

* `resolve` — a whole path;
* `resolveOutput` — a path into the outputs of a step;
* `walk` — the fields of a path inside a value.
-/

namespace WorkflowCompiler

/-- Why a path or a text could not be resolved. -/
inductive ResolutionError where
  /-- nothing is bound to the root of the path -/
  | undefined (path : String)
  /-- a value on the path has no such field -/
  | unknownField (path field : String)
  /-- the step has no such output -/
  | unknownOutput (step field : String) (available : List String)
  /-- nothing is known of the step -/
  | outputsUnavailable (step : String)
  /-- the step has not ended, or has failed -/
  | stepNotDone (step : String) (status : Status)
  /-- values kept bringing in placeholders -/
  | unresolved (rounds : Nat) (paths : List String)
  /-- required variables are not bound -/
  | missingRequired (names : List String)
deriving DecidableEq

namespace ResolutionError

/-- The error in words. -/
def message : ResolutionError → String
  | undefined path => "undefined variable '" ++ path ++ "'"
  | unknownField path field =>
    "unknown field '" ++ field ++ "' while resolving '" ++ path ++ "'"
  | unknownOutput step field available =>
    "step '" ++ step ++ "' has no output '" ++ field ++ "' (available: " ++
      Text.joined ", " available ++ ")"
  | outputsUnavailable step => "outputs of step '" ++ step ++ "' are not available"
  | stepNotDone step status =>
    "step '" ++ step ++ "' is not done yet (status: " ++ status.name ++ ")"
  | unresolved rounds paths =>
    "unresolved after max depth (" ++ toString rounds ++ " rounds): " ++ Text.joined ", " paths
  | missingRequired names => "missing required variables: " ++ Text.joined ", " names

end ResolutionError

/-- A computation in a session. -/
abbrev Resolving (α : Type) := Attempt Session ResolutionError α

/-- What a path resolves to. -/
inductive Resolution where
  /-- a value -/
  | value (v : Json)
  /-- nothing yet: the placeholder is left as it stands -/
  | deferred

/-- The value at the end of the fields, from a value on. The path is named in the error. -/
def walk (path : String) : Json → List String → Except ResolutionError Json
  | value, [] => .ok value
  | value, field :: rest =>
    match value.field? field with
    | some inner => walk path inner rest
    | none => .error (.unknownField path field)

/-- The text that the clock gives for a name. -/
def clockText? (clock : Int) (name : String) : Option String :=
  if name = "timestamp" then some (Calendar.timestampText clock)
  else if name = "date" then some (Calendar.dateText clock)
  else if name = "time" then some (Calendar.timeText clock)
  else none

/-- Asks the look-up for a step, if there is one. -/
def askFor (step : String) : Resolving (Option Snapshot) := fun s =>
  match s.context.lookup with
  | none => (.ok none, s)
  | some lookup => (.ok (lookup step), { s with asked := s.asked ++ [step] })

/-- The outputs of a step, if they are known or the look-up reports the step as done. Outputs
that have to wait are none. -/
def outputsOf (step : String) : Resolving (Option (Fields Json)) := do
  match ← Attempt.ask fun s => s.context.outputs.get? step with
  | some outputs => pure (some outputs)
  | none =>
    match ← askFor step with
    | some ⟨.done, outputs⟩ => do
      Attempt.change fun s => s.update (·.setOutputs step outputs)
      pure (some outputs)
    | some ⟨status, _⟩ => do
      if ← Attempt.ask fun s => s.context.deferred then pure none
      else Attempt.fail (.stepNotDone step status)
    | none => do
      if ← Attempt.ask fun s => s.context.deferred then pure none
      else Attempt.fail (.outputsUnavailable step)

/-- Resolves a reference to the outputs of a step: all of them, or a field inside them. -/
def resolveOutput (path step : String) (fields : List String) : Resolving Resolution := do
  match ← outputsOf step with
  | none => pure .deferred
  | some outputs =>
    match fields with
    | [] => pure (.value (.obj outputs))
    | field :: deeper =>
      match outputs.get? field with
      | none => Attempt.fail (.unknownOutput step field outputs.names)
      | some value => Attempt.ofExcept ((walk path value deeper).map .value)

/-- What the root of a path and its fields resolve to in a context. -/
def resolveBinding (c : Context) (path root : String) (fields : List String) :
    Except ResolutionError Resolution :=
  if root ∈ c.late then .ok .deferred
  else
    match c.binding? root with
    | some value => (walk path value fields).map .value
    | none =>
      match fields, clockText? c.clock root with
      | [], some text => .ok (.value (.str text))
      | _, _ => .error (.undefined path)

/-- Resolves a path. -/
def resolve (path : String) : Resolving Resolution :=
  match Referent.ofPath path with
  | .output step fields => resolveOutput path step fields
  | .binding root fields => fun s => (resolveBinding s.context path root fields, s)

/-- Fails if a required variable has neither a value nor a default. -/
def Context.checkRequired (c : Context) (declared : Fields Variable) :
    Except ResolutionError Unit :=
  match c.missing declared with
  | [] => .ok ()
  | names => .error (.missingRequired names)

end WorkflowCompiler
