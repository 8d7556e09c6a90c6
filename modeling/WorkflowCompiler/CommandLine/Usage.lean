import WorkflowCompiler.Validation.Finding

/-!
# What the program says

The name and the version of the program, how it is used, the lines that every run starts with,
and the report on a validation.
-/

namespace WorkflowCompiler.CommandLine

/-- The name of the program. -/
def programName : String := "meow"

/-- The version of the program. -/
def programVersion : String := "0.1.0"

/-- How the program is used. -/
def usage : String :=
  "Usage: meow [OPTIONS] <TEMPLATE>\n" ++
  "\n" ++
  "Arguments:\n" ++
  "  <TEMPLATE>           Template file, or name[#workflow] on the search path\n" ++
  "\n" ++
  "Options:\n" ++
  "  --workflow TEMPLATE  Same as the positional <TEMPLATE>\n" ++
  "  --var KEY=VALUE      Bind a workflow variable (repeatable)\n" ++
  "  --run-id ID          Workflow instance ID (default: <name>-<timestamp>)\n" ++
  "  --assignee NAME      Default agent for agent steps\n" ++
  "  --project-dir PATH   Project root for template lookup (default: cwd)\n" ++
  "  --output PATH        Write baked steps to PATH instead of stdout\n" ++
  "  --validate-only      Validate without baking\n" ++
  "  --shell-escape       Quote substituted values in shell commands\n" ++
  "  --verbose            Enable debug logging\n" ++
  "  --help               Show this help message\n" ++
  "  --version            Show version information\n" ++
  "\n" ++
  "Examples:\n" ++
  "  meow release.meow.toml --var version=1.4.0\n" ++
  "  meow release#hotfix --run-id hotfix-7\n"

/-- The first lines of a run. -/
def banner : String :=
  "\n" ++ programName ++ " v" ++ programVersion ++ "\nWorkflow Template Compiler\n\n"

/-- What is said about a validation. -/
def report (findings : List Finding) : String :=
  match findings with
  | [] => "✓ template is valid\n"
  | _ =>
    "✗ " ++ toString findings.length ++ " validation error(s):\n" ++
      String.join (findings.map fun f => "  - " ++ f.text ++ "\n")

end WorkflowCompiler.CommandLine
