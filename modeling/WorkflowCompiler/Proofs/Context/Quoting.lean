import WorkflowCompiler.Proofs.Context.Replacing

/-!
# Quoted values in commands

A command is read by the shell character by character, inside or outside of quotes
(`ShellWord.read`). A quoted word is read as the text it was made from, and all of it is quoted
(`ShellWord.read_quoteChars`). So if the placeholders of a command stand outside of quotes, the
values that take their places change nothing about how the rest of it is read
(`substituteShell_outline_eq`).
-/

namespace WorkflowCompiler

namespace ShellWord

/-! ## Reading a command -/

/-- How the next character of a command is read. -/
inductive Mode where
  /-- outside of quotes -/
  | unquoted
  /-- behind a backslash outside of quotes -/
  | escaped
  /-- inside single quotes -/
  | single
  /-- inside double quotes -/
  | double
  /-- behind a backslash inside double quotes -/
  | doubleEscaped
deriving DecidableEq

/-- A character that a command contributes to its words. -/
structure Mark where
  /-- the character -/
  char : Char
  /-- it stands for itself, whatever it may mean to the shell elsewhere -/
  quoted : Bool
deriving DecidableEq

/-- The characters that stay special inside double quotes: a dollar sign and a backquote. -/
def expanding : List Char := ['$', '\x60']

/-- Reads a character: how the next one is read, and what the words get. Quotes, and the backslash
that escapes a character, are removed. -/
def readChar : Mode → Char → Mode × List Mark
  | .unquoted, c =>
    if c = '\\' then (.escaped, [])
    else if c = '\'' then (.single, [])
    else if c = '"' then (.double, [])
    else (.unquoted, [⟨c, false⟩])
  | .escaped, c => (.unquoted, if c = '\n' then [] else [⟨c, true⟩])
  | .single, c => if c = '\'' then (.unquoted, []) else (.single, [⟨c, true⟩])
  | .double, c =>
    if c = '"' then (.unquoted, [])
    else if c = '\\' then (.doubleEscaped, [])
    else (.double, [⟨c, c ∉ expanding⟩])
  | .doubleEscaped, c =>
    -- inside double quotes a backslash stands for itself before most characters
    (.double,
      if c = '\n' then []
      else if c = '"' ∨ c = '\\' ∨ c ∈ expanding then [⟨c, true⟩]
      else [⟨'\\', true⟩, ⟨c, true⟩])

/-- Reads characters: how the next one is read, and what the words get. -/
def read : Mode → List Char → Mode × List Mark
  | mode, [] => (mode, [])
  | mode, c :: cs =>
    let rest := read (readChar mode c).1 cs
    (rest.1, (readChar mode c).2 ++ rest.2)

/-- The characters that are not quoted. -/
def bare (marks : List Mark) : List Char := (marks.filter fun m => !m.quoted).map Mark.char

/-- The outline of a command: how the character after it is read, and which of its characters are
not quoted. -/
def outline (cs : List Char) : Mode × List Char :=
  ((read .unquoted cs).1, bare (read .unquoted cs).2)

theorem read_append (mode : Mode) (cs ds : List Char) :
    read mode (cs ++ ds) =
      ((read (read mode cs).1 ds).1, (read mode cs).2 ++ (read (read mode cs).1 ds).2) := by
  induction cs generalizing mode with
  | nil => rfl
  | cons c cs ih => simp only [List.cons_append, read, ih, List.append_assoc]

theorem bare_append (ms ns : List Mark) : bare (ms ++ ns) = bare ms ++ bare ns := by
  simp only [bare, List.filter_append, List.map_append]

/-! ## Quoted words -/

/-- Inside single quotes, a character is read as itself, and the quotes are open again after it. -/
theorem read_escape (c : Char) : read .single (escape c) = (.single, [⟨c, true⟩]) := by
  by_cases h : c = '\''
  · subst h
    decide
  · simp only [escape, if_neg h, read, readChar, List.append_nil]

/-- A quoted word is read as the text it was made from, all of it quoted. -/
theorem read_quoteChars (cs : List Char) :
    read .unquoted (quoteChars cs) = (.unquoted, cs.map fun c => ⟨c, true⟩) := by
  have hinside : read .single (cs.flatMap escape) = (.single, cs.map fun c => ⟨c, true⟩) := by
    induction cs with
    | nil => rfl
    | cons c cs ih =>
      rw [List.flatMap_cons, read_append, read_escape, ih]
      rfl
  have hopen : read .unquoted ['\''] = (.single, []) := by decide
  have hclose : read .single ['\''] = (.unquoted, []) := by decide
  have hword : quoteChars cs = ['\''] ++ cs.flatMap escape ++ ['\''] := rfl
  rw [hword, read_append, read_append, hopen, hinside, hclose, List.nil_append, List.append_nil]

/-- A quoted word adds nothing to an outline that ends outside of quotes. -/
theorem outline_append_quoteChars {cs : List Char} (h : (outline cs).1 = .unquoted)
    (word : List Char) : outline (cs ++ quoteChars word) = outline cs := by
  have hbare : bare (word.map fun c => ⟨c, true⟩) = [] := by simp [bare]
  have hmode : (read .unquoted cs).1 = .unquoted := h
  rw [outline, outline, read_append, hmode, read_quoteChars, bare_append, hbare, List.append_nil]

/-- Outlines stay equal when the same characters are added. -/
theorem outline_append_congr {cs ds : List Char} (h : outline cs = outline ds)
    (es : List Char) : outline (cs ++ es) = outline (ds ++ es) := by
  obtain ⟨hmode, hbare⟩ := Prod.ext_iff.1 h
  simp only [outline] at hmode hbare
  simp only [outline, read_append, bare_append, hmode, hbare]

end ShellWord

/-! ## Commands with placeholders -/

/-- The literal text of a piece: a placeholder has none. -/
def Piece.literal (piece : Piece) : List Char :=
  match piece.path? with
  | none => piece.chars
  | some _ => []

/-- Every placeholder among the pieces stands where the literal text before it leaves the reader
outside of quotes, and not behind a backslash. -/
def UnquotedPlaces (ps : List Piece) : Prop :=
  ∀ n : Fin ps.length, ps[n].path?.isSome →
    (ShellWord.outline ((ps.take n).flatMap Piece.literal)).1 = .unquoted

instance (ps : List Piece) : Decidable (UnquotedPlaces ps) :=
  inferInstanceAs (Decidable (∀ n : Fin ps.length, ps[n].path?.isSome →
    (ShellWord.outline ((ps.take n).flatMap Piece.literal)).1 = .unquoted))

namespace Context

/-- What a substitution for the shell puts in the place of a piece. -/
def shellWritten (c : Context) (piece : Piece) : List Char :=
  c.written (fun value => ShellWord.quote value.text) piece

variable {c : Context} {piece : Piece} {ps : List Piece}

/-- Up to any point, what a substitution for the shell writes has the outline of the literal
text. -/
theorem outline_take_shellWritten (h : ∀ path ∈ ps.filterMap Piece.path?, c.Resolves path)
    (hplaces : UnquotedPlaces ps) (n : Nat) :
    ShellWord.outline ((ps.take n).flatMap c.shellWritten) =
      ShellWord.outline ((ps.take n).flatMap Piece.literal) := by
  induction n with
  | zero => rfl
  | succ n ih =>
    by_cases hn : n < ps.length
    · rw [← List.take_append_getElem hn, List.flatMap_append, List.flatMap_append,
        List.flatMap_singleton, List.flatMap_singleton]
      rcases hpath : ps[n].path? with _ | path
      · have hsame : c.shellWritten ps[n] = ps[n].literal := by
          rw [shellWritten, written_of_path?_eq_none hpath, Piece.literal, hpath]
        rw [hsame]
        exact ShellWord.outline_append_congr ih _
      · -- the placeholder has no literal text, and its value leaves the outline as it is
        have hplace := hplaces ⟨n, hn⟩ (by simp [hpath])
        obtain ⟨value, hvalue⟩ :=
          h path (List.mem_filterMap.2 ⟨ps[n], List.getElem_mem hn, hpath⟩)
        have hliteral : ps[n].literal = [] := by rw [Piece.literal, hpath]
        rw [shellWritten, written_of_resolveIn hpath hvalue, ShellWord.quote,
          String.toList_ofList, hliteral, List.append_nil, ← ih]
        exact ShellWord.outline_append_quoteChars (ih ▸ hplace) _
    · have htake : ps.take (n + 1) = ps.take n := by
        rw [List.take_of_length_le (by omega), List.take_of_length_le (by omega)]
      rw [htake]
      exact ih

theorem substituteShellIn_of_resolves {text : String}
    (h : ∀ path ∈ placeholderPaths text, c.Resolves path) :
    c.substituteShellIn text =
      .ok (String.ofList ((pieces text.toList).flatMap c.shellWritten)) := by
  rw [substituteShellIn, expandIn_of_resolves h]
  rfl

end Context

/-- A quoted value is read as the value, all of it quoted and with no quote left open. So if the
placeholders of a command stand outside of quotes, and resolve in two sessions, the one pass that
quotes their values ends in both, and up to any point of the command the two results have the same
outline, whatever the values are. -/
theorem substituteShell_outline_eq :
    (∀ v : String,
      (ShellWord.read .unquoted (ShellWord.quote v).toList).1 = .unquoted ∧
        (∀ mark ∈ (ShellWord.read .unquoted (ShellWord.quote v).toList).2, mark.quoted = true) ∧
        (ShellWord.read .unquoted (ShellWord.quote v).toList).2.map ShellWord.Mark.char =
          v.toList) ∧
    ∀ (text : String) (s t : Session),
      (∀ path ∈ placeholderPaths text, s.context.Resolves path ∧ t.context.Resolves path) →
      UnquotedPlaces (pieces text.toList) →
      (substituteShell text s).1 =
          .ok (String.ofList ((pieces text.toList).flatMap s.context.shellWritten)) ∧
        (substituteShell text t).1 =
          .ok (String.ofList ((pieces text.toList).flatMap t.context.shellWritten)) ∧
        ∀ n, ShellWord.outline (((pieces text.toList).take n).flatMap s.context.shellWritten) =
          ShellWord.outline (((pieces text.toList).take n).flatMap t.context.shellWritten) := by
  constructor
  · intro v
    rw [ShellWord.quote, String.toList_ofList, ShellWord.read_quoteChars]
    refine ⟨rfl, fun mark hmark => ?_, ?_⟩
    · obtain ⟨c, -, rfl⟩ := List.mem_map.1 hmark
      rfl
    · simp [Function.comp_def]
  · intro text s t hresolves hplaces
    have hs : ∀ path ∈ placeholderPaths text, s.context.Resolves path :=
      fun path hpath => (hresolves path hpath).1
    have ht : ∀ path ∈ placeholderPaths text, t.context.Resolves path :=
      fun path hpath => (hresolves path hpath).2
    refine ⟨?_, ?_, fun n => ?_⟩
    · rw [substituteShell_fst, Context.substituteShellIn_of_resolves hs]
    · rw [substituteShell_fst, Context.substituteShellIn_of_resolves ht]
    · rw [Context.outline_take_shellWritten hs hplaces,
        Context.outline_take_shellWritten ht hplaces]

/-- A command with a placeholder before and behind a quoted word. -/
def greetCommand : String := "greet \x7b\x7bname\x7d\x7d 'from us' > \x7b\x7bfile\x7d\x7d"

/-- A session in which the two placeholders of the command are bound. -/
def greetSession (name file : String) : Session :=
  { context := { vars := [("file", .str file), ("name", .str name)] } }

/-- A value that closes quotes, starts a command and refers to the other value changes nothing but
the quoted text. -/
theorem greetCommand_outline_eq :
    (∀ path ∈ placeholderPaths greetCommand,
      (greetSession "ada" "out").context.Resolves path ∧
        (greetSession "'; rm -r \x7b\x7bfile\x7d\x7d" "\n\"$HOME\"").context.Resolves path) ∧
    UnquotedPlaces (pieces greetCommand.toList) ∧
    ∀ n, ShellWord.outline (((pieces greetCommand.toList).take n).flatMap
        (greetSession "ada" "out").context.shellWritten) =
      ShellWord.outline (((pieces greetCommand.toList).take n).flatMap
        (greetSession "'; rm -r \x7b\x7bfile\x7d\x7d" "\n\"$HOME\"").context.shellWritten) := by
  have hresolves : ∀ path ∈ placeholderPaths greetCommand,
      (greetSession "ada" "out").context.Resolves path ∧
        (greetSession "'; rm -r \x7b\x7bfile\x7d\x7d" "\n\"$HOME\"").context.Resolves path := by
    have hpaths : placeholderPaths greetCommand = ["name", "file"] := by decide +kernel
    rw [hpaths, List.forall_mem_cons, List.forall_mem_singleton]
    exact ⟨⟨⟨_, rfl⟩, _, rfl⟩, ⟨_, rfl⟩, _, rfl⟩
  have hplaces : UnquotedPlaces (pieces greetCommand.toList) := by decide +kernel
  exact ⟨hresolves, hplaces,
    (substituteShell_outline_eq.2 greetCommand _ _ hresolves hplaces).2.2⟩

end WorkflowCompiler
