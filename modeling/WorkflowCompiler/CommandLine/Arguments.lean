import WorkflowCompiler.Fields
import WorkflowCompiler.Text.Blank
import WorkflowCompiler.Text.Split

/-!
# Reading the arguments

Arguments are read from left to right. Asking for help or for the version ends the reading,
and so does the first argument that cannot be understood. An argument that starts with a
hyphen and is no option is an error, and any other one is the template, which can be given
only once.

* `Argument.of` — what a single argument is;
* `Request.read` — what the arguments ask for.
-/

namespace WorkflowCompiler

/-- Why arguments cannot be understood. -/
inductive ArgumentError where
  /-- an option stands at the end without its value -/
  | noValue (flag : String)
  /-- a binding has no name or no equals sign -/
  | badBinding (text : String)
  /-- the option for the template is given after a template -/
  | templateTwice
  /-- no option has the name -/
  | unknownOption (text : String)
  /-- a template is given after a template -/
  | unexpected (text : String)
  /-- there is no template -/
  | noTemplate
deriving DecidableEq

/-- The error in words. -/
def ArgumentError.message : ArgumentError → String
  | noValue flag => flag ++ " requires an argument"
  | badBinding text => "Invalid variable binding '" ++ text ++ "' (expected KEY=VALUE)"
  | templateTwice => "Template given more than once"
  | unknownOption text => "Unknown option: " ++ text
  | unexpected text => "Unexpected argument: " ++ text
  | noTemplate => "No template given"

/-- What is asked for besides the template. -/
structure Options where
  /-- the bindings of variables, in order -/
  bindings : List (String × String) := []
  /-- the id of the run -/
  runId : Option String := none
  /-- the agent of steps that name none -/
  assignee : Option String := none
  /-- the directory of the project -/
  projectDirectory : Option String := none
  /-- the file to which the compiled steps are written -/
  output : Option String := none
  /-- nothing is compiled -/
  validateOnly : Bool := false
  /-- values in commands are quoted for the shell -/
  shellQuoting : Bool := false
  /-- what is done is told in detail -/
  verbose : Bool := false
deriving DecidableEq

/-- What arguments ask for. -/
inductive Request where
  /-- how the program is used -/
  | help
  /-- which version it is -/
  | version
  /-- to validate a template and compile it -/
  | compile (template : String) (options : Options)
deriving DecidableEq

/-- An option without a value. -/
inductive Switch where
  /-- to compile nothing -/
  | validateOnly
  /-- to quote values for the shell -/
  | shellQuoting
  /-- to tell what is done -/
  | verbose
deriving DecidableEq

/-- An option that is followed by its value. -/
inductive ValueOption where
  /-- the binding of a variable -/
  | binding
  /-- the template -/
  | template
  /-- the id of the run -/
  | runId
  /-- the agent of steps that name none -/
  | assignee
  /-- the directory of the project -/
  | projectDirectory
  /-- the file for the compiled steps -/
  | output
deriving DecidableEq

/-- The name of an option. -/
def ValueOption.flag : ValueOption → String
  | binding => "--var"
  | template => "--workflow"
  | runId => "--run-id"
  | assignee => "--assignee"
  | projectDirectory => "--project-dir"
  | output => "--output"

/-- What a single argument is. -/
inductive Argument where
  /-- asks for help -/
  | help
  /-- asks for the version -/
  | version
  /-- an option without a value -/
  | switch (s : Switch)
  /-- an option whose value follows -/
  | valued (o : ValueOption)
  /-- looks like an option and is none -/
  | unknown
  /-- a template -/
  | template
deriving DecidableEq

/-- The arguments with a meaning of their own. -/
def Argument.table : List (String × Argument) :=
  [("--help", .help), ("-h", .help), ("--version", .version), ("-V", .version),
   ("--validate-only", .switch .validateOnly), ("--shell-escape", .switch .shellQuoting),
   ("--verbose", .switch .verbose), ("-v", .switch .verbose), ("--var", .valued .binding),
   ("--workflow", .valued .template), ("-w", .valued .template), ("--run-id", .valued .runId),
   ("--assignee", .valued .assignee), ("--project-dir", .valued .projectDirectory),
   ("--output", .valued .output), ("-o", .valued .output)]

/-- What an argument is. -/
def Argument.of (text : String) : Argument :=
  match Argument.table.lookup text with
  | some known => known
  | none => if text.toList.head? = some '-' then .unknown else .template

/-- The options with a switch turned on. -/
def Options.turnOn (o : Options) : Switch → Options
  | .validateOnly => { o with validateOnly := true }
  | .shellQuoting => { o with shellQuoting := true }
  | .verbose => { o with verbose := true }

/-- Reads the binding of a variable: a name that is not blank, an equals sign and a value. -/
def readBinding (text : String) : Except ArgumentError (String × String) :=
  match Text.cutAt? '=' text with
  | some (name, value) =>
    if Text.allBlank name then .error (.badBinding text) else .ok (Text.trim name, value)
  | none => .error (.badBinding text)

namespace Request

/-- Reads arguments behind those that gave the template and the options. -/
def readFrom (template : Option String) (o : Options) :
    List String → Except ArgumentError Request
  | [] =>
    match template with
    | some template => .ok (.compile template o)
    | none => .error .noTemplate
  | text :: rest =>
    match Argument.of text with
    | .help => .ok .help
    | .version => .ok .version
    | .switch s => readFrom template (o.turnOn s) rest
    | .unknown => .error (.unknownOption text)
    | .template =>
      if template.isSome then .error (.unexpected text) else readFrom (some text) o rest
    | .valued option =>
      if option = .template ∧ template.isSome then .error .templateTwice
      else
        match rest with
        | [] => .error (.noValue option.flag)
        | value :: rest =>
          match option with
          | .template => readFrom (some value) o rest
          | .runId => readFrom template { o with runId := some value } rest
          | .assignee => readFrom template { o with assignee := some value } rest
          | .projectDirectory =>
            readFrom template { o with projectDirectory := some value } rest
          | .output => readFrom template { o with output := some value } rest
          | .binding =>
            match readBinding value with
            | .error e => .error e
            | .ok binding => readFrom template { o with bindings := o.bindings ++ [binding] } rest

/-- What arguments ask for. -/
def read (arguments : List String) : Except ArgumentError Request :=
  readFrom none {} arguments

end Request

end WorkflowCompiler
