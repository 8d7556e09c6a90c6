import WorkflowCompiler.Json.Reader

/-!
# The lexemes of TOML

What a TOML text is made of below the level of values: blanks, line ends and comments, bare
and quoted keys, and the four forms of strings. A function that reads something gives what it
read together with the rest of the text, or nothing if the text does not start with it.
-/

namespace WorkflowCompiler.Toml

/-! ## Blanks, line ends and comments -/

/-- A blank inside a line. -/
def isSpace (c : Char) : Bool := c = ' ' || c = '\t'

/-- The text behind the blanks at its start. -/
def skipSpace (cs : List Char) : List Char := cs.dropWhile isSpace

/-- A character that may stand in a comment: all but the control characters, and the tab. -/
def isCommentChar (c : Char) : Bool := c = '\t' || (0x20 ≤ c.toNat && c.toNat ≠ 0x7F)

/-- The text behind the line end at its start. -/
def lineEnd? : List Char → Option (List Char)
  | '\n' :: rest => some rest
  | '\r' :: '\n' :: rest => some rest
  | _ => none

/-- The text behind the comment at its start, if there is one. -/
def skipComment : List Char → List Char
  | '#' :: rest => rest.dropWhile isCommentChar
  | cs => cs

/-- The text behind the blanks, the comment and the line end, or the end of the text, that
end a line. -/
def endOfLine? (cs : List Char) : Option (List Char) :=
  match skipComment (skipSpace cs) with
  | [] => some []
  | rest => lineEnd? rest

/-- The text behind blanks and line ends; `fuel` bounds their number. -/
def skipLines : Nat → List Char → List Char
  | 0, cs => cs
  | fuel + 1, cs =>
    match cs with
    | c :: rest =>
      if isSpace c then skipLines fuel rest
      else
        match lineEnd? cs with
        | some rest => skipLines fuel rest
        | none => cs
    | [] => []

/-- The text behind blanks, line ends and comments; `fuel` bounds their number. -/
def skipFiller : Nat → List Char → List Char
  | 0, cs => cs
  | fuel + 1, cs =>
    match cs with
    | '#' :: rest => skipFiller fuel (rest.dropWhile isCommentChar)
    | c :: rest =>
      if isSpace c then skipFiller fuel rest
      else
        match lineEnd? cs with
        | some rest => skipFiller fuel rest
        | none => cs
    | [] => []

/-! ## Strings -/

/-- A character that may stand in any string: all but the control characters, and the tab. -/
def isStringChar (c : Char) : Bool := isCommentChar c

/-- So many hexadecimal digits at the start of a text. -/
def readHex (count : Nat) (cs : List Char) : Option (Nat × List Char) := do
  let ds := cs.take count
  if ds.length = count then
    let values ← ds.mapM Json.hexValue?
    pure (values.foldl (fun n d => 16 * n + d) 0, cs.drop count)
  else none

/-- The character behind a backslash. -/
def readEscape : List Char → Option (Char × List Char)
  | 'b' :: rest => some ('\x08', rest)
  | 't' :: rest => some ('\t', rest)
  | 'n' :: rest => some ('\n', rest)
  | 'f' :: rest => some ('\x0C', rest)
  | 'r' :: rest => some ('\r', rest)
  | '"' :: rest => some ('"', rest)
  | '\\' :: rest => some ('\\', rest)
  | 'u' :: rest => do
    let (n, rest) ← readHex 4 rest
    let c ← Json.charOf? n
    pure (c, rest)
  | 'U' :: rest => do
    let (n, rest) ← readHex 8 rest
    let c ← Json.charOf? n
    pure (c, rest)
  | _ => none

/-- The rest of a string in double quotes, behind its opening quote. -/
def readBasic : Nat → List Char → Option (List Char × List Char)
  | 0, _ => none
  | fuel + 1, cs =>
    match cs with
    | '"' :: rest => some ([], rest)
    | '\\' :: rest => do
      let (c, rest) ← readEscape rest
      let (tail, rest) ← readBasic fuel rest
      pure (c :: tail, rest)
    | c :: rest =>
      if isStringChar c then do
        let (tail, rest) ← readBasic fuel rest
        pure (c :: tail, rest)
      else none
    | [] => none

/-- The rest of a string in single quotes, behind its opening quote. -/
def readLiteral (cs : List Char) : Option (List Char × List Char) :=
  let body := cs.takeWhile fun c => isStringChar c && c ≠ '\''
  match cs.drop body.length with
  | '\'' :: rest => some (body, rest)
  | _ => none

/-- The quotes at the start of a text inside a string of several lines. Three of them close
the string, and up to two more in front of those belong to it: given are the quotes that
belong to the string, the rest, and whether the string is closed. -/
def readQuotes (quote : Char) (cs : List Char) : List Char × List Char × Bool :=
  let count := (cs.takeWhile (· = quote)).length
  if 3 ≤ count then
    let inside := min (count - 3) 2
    (List.replicate inside quote, cs.drop (inside + 3), true)
  else (List.replicate count quote, cs.drop count, false)

/-- What is left out behind a backslash at the end of a line: the line end, and all blanks
and line ends that follow it. -/
def skipJoin? (cs : List Char) : Option (List Char) := do
  let rest ← lineEnd? (skipSpace cs)
  pure (skipLines rest.length rest)

/-- The rest of a string of several lines, behind its opening quotes. Escapes count only in
double quotes, and every line end is a line feed. -/
def readMultiline (quote : Char) : Nat → List Char → Option (List Char × List Char)
  | 0, _ => none
  | fuel + 1, cs =>
    match cs with
    | [] => none
    | c :: rest =>
      if c = quote then
        let (inside, rest, closed) := readQuotes quote cs
        if closed then some (inside, rest)
        else do
          let (tail, rest) ← readMultiline quote fuel rest
          pure (inside ++ tail, rest)
      else if c = '\\' ∧ quote = '"' then
        match skipJoin? rest with
        | some rest => readMultiline quote fuel rest
        | none => do
          let (c, rest) ← readEscape rest
          let (tail, rest) ← readMultiline quote fuel rest
          pure (c :: tail, rest)
      else
        match lineEnd? cs with
        | some rest => do
          let (tail, rest) ← readMultiline quote fuel rest
          pure ('\n' :: tail, rest)
        | none =>
          if isStringChar c then do
            let (tail, rest) ← readMultiline quote fuel rest
            pure (c :: tail, rest)
          else none

/-- A string of several lines, behind its opening quotes: a line end there does not count. -/
def readMultilineBody (quote : Char) (cs : List Char) : Option (List Char × List Char) :=
  let body := (lineEnd? cs).getD cs
  readMultiline quote (body.length + 1) body

/-- A string of one of the four forms. -/
def readString : List Char → Option (String × List Char)
  | '"' :: '"' :: '"' :: rest => do
    let (chars, rest) ← readMultilineBody '"' rest
    pure (String.ofList chars, rest)
  | '\'' :: '\'' :: '\'' :: rest => do
    let (chars, rest) ← readMultilineBody '\'' rest
    pure (String.ofList chars, rest)
  | '"' :: rest => do
    let (chars, rest) ← readBasic (rest.length + 1) rest
    pure (String.ofList chars, rest)
  | '\'' :: rest => do
    let (chars, rest) ← readLiteral rest
    pure (String.ofList chars, rest)
  | _ => none

/-! ## Keys -/

/-- A character of a bare key. -/
def isKeyChar (c : Char) : Bool := c.isAlphanum || c = '-' || c = '_'

/-- A bare key, or one in quotes on one line. -/
def readKey : List Char → Option (String × List Char)
  | '"' :: rest => do
    let (chars, rest) ← readBasic (rest.length + 1) rest
    pure (String.ofList chars, rest)
  | '\'' :: rest => do
    let (chars, rest) ← readLiteral rest
    pure (String.ofList chars, rest)
  | cs =>
    match cs.takeWhile isKeyChar with
    | [] => none
    | chars => some (String.ofList chars, cs.drop chars.length)

/-- Keys with points between them, and blanks around each; `fuel` bounds their number. -/
def readKeys : Nat → List Char → Option (List String × List Char)
  | 0, _ => none
  | fuel + 1, cs => do
    let (key, rest) ← readKey (skipSpace cs)
    match skipSpace rest with
    | '.' :: rest => do
      let (keys, rest) ← readKeys fuel rest
      pure (key :: keys, rest)
    | rest => pure ([key], rest)

/-- How deep values may stand in each other, and how many keys a path may have, less one. -/
def depthLimit : Nat := 80

/-- A path of keys. -/
def readPath (cs : List Char) : Option (List String × List Char) := do
  let (keys, rest) ← readKeys (cs.length + 1) cs
  if keys.length < depthLimit then pure (keys, rest) else none

end WorkflowCompiler.Toml
