import WorkflowCompiler.Context.Resolution
import WorkflowCompiler.Json.Printer
import WorkflowCompiler.Text.ShellWord

/-!
# Substituting placeholders

One *pass* over a text replaces each placeholder by the text of its value, from left to
right, and leaves a placeholder that has to wait as it stands.

* `substitute` repeats passes, so that placeholders inside values are replaced too, until a
  pass replaces nothing or `maxRounds` passes are done. Placeholders that are left then are
  an error, unless they are deferred.
* `substituteShell` makes one pass and quotes every value for the shell, so that nothing
  inside a value is read as anything but text.
-/

namespace WorkflowCompiler

/-- How many passes a substitution makes. -/
def maxRounds : Nat := 10

/-- What a pass puts in the place of a piece, and whether it replaced it. -/
def expandPiece (write : Json → String) (piece : Piece) : Resolving (List Char × Bool) :=
  match piece.path? with
  | none => pure (piece.chars, false)
  | some path => do
    match ← resolve path with
    | .value value => pure ((write value).toList, true)
    | .deferred => pure (piece.chars, false)

/-- Replaces the placeholders among pieces, and says whether it replaced any. -/
def expandPieces (write : Json → String) : List Piece → Resolving (List Char × Bool)
  | [] => pure ([], false)
  | piece :: rest => do
    let (chars, replaced) ← expandPiece write piece
    let (tail, replacedLater) ← expandPieces write rest
    pure (chars ++ tail, replaced || replacedLater)

/-- Replaces the placeholders of a text once, and says whether it replaced any. -/
def substitutePass (write : Json → String) (text : List Char) : Resolving (List Char × Bool) :=
  expandPieces write (pieces text)

/-- Ends a substitution whose passes are used up. -/
def settle (text : List Char) : Resolving (List Char) := do
  let paths := (pieces text).filterMap Piece.path?
  if paths = [] || (← Attempt.ask fun s => s.context.deferred) then pure text
  else Attempt.fail (.unresolved maxRounds paths)

/-- Makes passes until one replaces nothing, at most so many. -/
def substituteRounds : Nat → List Char → Resolving (List Char)
  | 0, text => settle text
  | rounds + 1, text => do
    let (next, replaced) ← substitutePass Json.text text
    if replaced then substituteRounds rounds next else pure next

/-- Replaces the placeholders of a text, and those that come in with their values. A text without
two opening braces next to each other is given back at once. -/
def substitute (text : String) : Resolving String :=
  if opensSlot text.toList then do
    let chars ← substituteRounds maxRounds text.toList
    pure (String.ofList chars)
  else pure text

/-- Replaces the placeholders of a text once, each by its value as a word of the shell. A text
without two opening braces next to each other is given back at once. -/
def substituteShell (text : String) : Resolving String :=
  if opensSlot text.toList then do
    let (chars, _) ← substitutePass (fun value => ShellWord.quote value.text) text.toList
    pure (String.ofList chars)
  else pure text

/-! ## Texts without slots -/

theorem expandPieces_map_char (write : Json → String) (cs : List Char) :
    expandPieces write (cs.map .char) = pure (cs, false) := by
  induction cs with
  | nil => rfl
  | cons c cs ih =>
    rw [List.map_cons, expandPieces, ih]
    rfl

/-- A pass leaves a plain text as it stands. -/
theorem substitutePass_of_opensSlot_eq_false {write : Json → String} {text : List Char}
    (h : opensSlot text = false) : substitutePass write text = pure (text, false) := by
  rw [substitutePass, pieces_of_opensSlot_eq_false h, expandPieces_map_char]

/-- Looking for opening braces first makes no difference to what a text becomes. -/
theorem substitute_eq (text : String) :
    substitute text = (do
      let chars ← substituteRounds maxRounds text.toList
      pure (String.ofList chars)) := by
  rw [substitute]
  cases h : opensSlot text.toList with
  | true => rfl
  | false =>
    rw [maxRounds, substituteRounds, substitutePass_of_opensSlot_eq_false h]
    exact congrArg pure String.ofList_toList.symm

/-- Nor does it for the shell. -/
theorem substituteShell_eq (text : String) :
    substituteShell text = (do
      let (chars, _) ← substitutePass (fun value => ShellWord.quote value.text) text.toList
      pure (String.ofList chars)) := by
  rw [substituteShell]
  cases h : opensSlot text.toList with
  | true => rfl
  | false =>
    rw [substitutePass_of_opensSlot_eq_false h]
    exact congrArg pure String.ofList_toList.symm

end WorkflowCompiler
