/-!
# Words of the POSIX shell

`quote` writes any text as one word of a shell command that means exactly that text: it
stands in single quotes, inside which no character is special, and each single quote of the
text closes them, stands in double quotes of its own, and opens them again.
-/

namespace WorkflowCompiler.ShellWord

/-- A character inside the single quotes. -/
def escape (c : Char) : List Char :=
  if c = '\'' then ['\'', '"', '\'', '"', '\''] else [c]

/-- The text as one quoted word. -/
def quoteChars (cs : List Char) : List Char := '\'' :: cs.flatMap escape ++ ['\'']

/-- The text as one quoted word. -/
def quote (s : String) : String := String.ofList (quoteChars s.toList)

end WorkflowCompiler.ShellWord
