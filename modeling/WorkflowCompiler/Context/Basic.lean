import WorkflowCompiler.Workflow.Variable

/-!
# The context of a run

A *context* holds what placeholders are resolved against: variables, builtins (which
variables of the same name hide), and the outputs of other steps as far as they are known. It
also says what happens to a reference that cannot be resolved yet: with *deferral* it is left
as it stands. A root that is *bound late* is always left as it stands.

Outputs that are not known are asked for with the context's *look-up*. A `Session` is a
context together with a record of the steps that were asked for, in order.

The clock and the look-up of a run are procedures of whoever starts it, which are called whenever a
placeholder needs them. Here they are data. This takes for granted that during one call of the
library, be it the substitution of a text or the compilation of a workflow, the clock shows one
moment, and that the look-up is a function: it gives one answer for each step and has no effect but
to be recorded as asked. From one call to the next both may be replaced.
-/

namespace WorkflowCompiler

/-- How far a step of a run has got. -/
inductive Status where
  | pending
  | running
  | done
  | failed
deriving DecidableEq

namespace Status

/-- The name of a status. -/
def name : Status → String
  | pending => "pending"
  | running => "running"
  | done => "done"
  | failed => "failed"

/-- The status of a name. -/
def read? (text : String) : Option Status :=
  [pending, running, done, failed].find? fun status => status.name = text

theorem read?_name (s : Status) : read? s.name = some s := by cases s <;> decide

end Status

/-- What is known of a step of a run. -/
structure Snapshot where
  /-- how far it has got -/
  status : Status
  /-- its outputs -/
  outputs : Fields Json

/-- What placeholders are resolved against. -/
structure Context where
  /-- the variables -/
  vars : Fields Json := []
  /-- the builtins, hidden by variables of the same name -/
  builtins : Fields Json := []
  /-- the outputs that are known, by step -/
  outputs : Fields (Fields Json) := []
  /-- the roots that are left as they stand -/
  late : List String := []
  /-- what cannot be resolved yet is left as it stands -/
  deferred : Bool := false
  /-- finds a step whose outputs are not known; during a call it answers alike whenever asked -/
  lookup : Option (String → Option Snapshot) := none
  /-- the moment that the clock shows during a call, in seconds since the start of 1970 -/
  clock : Int := 0

instance : Inhabited Context := ⟨{}⟩

namespace Context

/-- The context with a variable bound to a value. -/
def setVariable (c : Context) (name : String) (value : Json) : Context :=
  { c with vars := c.vars.set name value }

/-- The context with a builtin bound to a value. -/
def setBuiltin (c : Context) (name : String) (value : Json) : Context :=
  { c with builtins := c.builtins.set name value }

/-- The context without a builtin. -/
def removeBuiltin (c : Context) (name : String) : Context :=
  { c with builtins := c.builtins.erase name }

/-- The context in which the outputs of a step are known. -/
def setOutputs (c : Context) (step : String) (outputs : Fields Json) : Context :=
  { c with outputs := c.outputs.set step outputs }

/-- The context with a root bound late. -/
def bindLate (c : Context) (name : String) : Context :=
  { c with late := if name ∈ c.late then c.late else name :: c.late }

/-- The context with a root no longer bound late. -/
def unbindLate (c : Context) (name : String) : Context :=
  { c with late := c.late.filter (· ≠ name) }

/-- The context with nothing bound and nothing known; deferral, look-up and clock stay. -/
def reset (c : Context) : Context :=
  { c with vars := [], builtins := [], outputs := [], late := [] }

/-- The context in which every unbound variable with a default is bound to it. -/
def applyDefaults (c : Context) (declared : Fields Variable) : Context :=
  declared.foldl (fun c entry =>
    match entry.2.default with
    | some value => if c.vars.has entry.1 then c else c.setVariable entry.1 value
    | none => c) c

/-- The names of the required variables that have neither a value nor a default. -/
def missing (c : Context) (declared : Fields Variable) : List String :=
  Fields.names (declared.filter fun entry =>
    entry.2.required && entry.2.default.isNone && !c.vars.has entry.1)

/-- What a root is bound to: a variable, or else a builtin. -/
def binding? (c : Context) (root : String) : Option Json :=
  c.vars.get? root <|> c.builtins.get? root

theorem mem_late_bindLate {c : Context} {name other : String} :
    other ∈ (c.bindLate name).late ↔ other = name ∨ other ∈ c.late := by
  simp only [bindLate]
  split
  · rename_i h
    constructor
    · exact .inr
    · rintro (rfl | h')
      · exact h
      · exact h'
  · simp

theorem mem_late_unbindLate {c : Context} {name other : String} :
    other ∈ (c.unbindLate name).late ↔ other ∈ c.late ∧ other ≠ name := by
  simp [unbindLate]

end Context

/-- A context, and the steps whose outputs were asked for. -/
structure Session where
  /-- the context -/
  context : Context := {}
  /-- the steps the look-up was asked for, in order -/
  asked : List String := []

instance : Inhabited Session := ⟨{}⟩

namespace Session

/-- The session with its context changed. -/
def update (s : Session) (f : Context → Context) : Session := { s with context := f s.context }

@[simp] theorem context_update (s : Session) (f : Context → Context) :
    (s.update f).context = f s.context := rfl

@[simp] theorem asked_update (s : Session) (f : Context → Context) :
    (s.update f).asked = s.asked := rfl

end Session

end WorkflowCompiler
