import WorkflowCompiler.CommandLine.Places
import Std.Time.DateTime.Timestamp

/-!
# The command line

The program as a process: what it depends on is read from the real disk, the run is computed,
and what it wrote is passed on.
-/

namespace WorkflowCompiler.Main

open CommandLine

/-- What an error of the system says about a place. -/
def entryOfError : IO.Error → Option Entry
  | .inappropriateType _ 21 _ => some .directory
  | .permissionDenied _ _ _ => some (.file .hidden)
  | _ => none

/-- What stands at a place of the real disk. -/
def look (place : Place) : IO (Option Entry) := do
  try
    let bytes ← IO.FS.readBinFile ("/" ++ Text.joined "/" place)
    pure (some (.file (Contents.ofBytes bytes)))
  catch e => pure (entryOfError e)

/-- Reads all that the run depends on; `seen` are the places that were looked at. -/
partial def explore (s : Surroundings) (seen : List Place) : IO Surroundings := do
  let new := ((placesSought s).filter fun place => !seen.contains place).eraseDups
  if new.isEmpty then pure s
  else
    let found ← new.filterMapM fun place => do
      pure ((← look place).map fun entry => (place, entry))
    let disk := { s.disk with entries := found ++ s.disk.entries }
    explore { s with disk } (new ++ seen)

/-- Passes on what a run wrote into files. -/
def writeFiles (before after : Disk) : IO Unit :=
  for (place, entry) in after.entries do
    match entry with
    | .file (.text s) =>
      if before.entryAt? place ≠ some entry then IO.FS.writeFile ("/" ++ Text.joined "/" place) s
    | _ => pure ()

/-- The directory in which the settings of the user are kept. -/
def userSettings : IO (Option String) := do
  match ← IO.getEnv "XDG_CONFIG_HOME" with
  | some path => if FilePath.isAbsolute path then return some path
  | none => pure ()
  return (← IO.getEnv "HOME").bind fun home =>
    if home = "" then none else some (FilePath.join home ".config")

end WorkflowCompiler.Main

open WorkflowCompiler WorkflowCompiler.CommandLine in
/-- Runs the program on the arguments of the process. -/
def main (arguments : List String) : IO UInt32 := do
  let cwd := (Text.split '/' (toString (← IO.currentDir))).filter (· ≠ "")
  let now ← Std.Time.Timestamp.now
  let surroundings ← Main.explore
    { arguments, disk := { cwd }, userSettings := ← Main.userSettings,
      clock := now.toSecondsSinceUnixEpoch.val } []
  let outcome := run surroundings
  Main.writeFiles surroundings.disk outcome.console.disk
  (← IO.getStdout).putStr outcome.console.output
  (← IO.getStderr).putStr outcome.console.errors
  return if outcome.failed then 1 else 0
