import WorkflowCompiler.Text.Blank
import WorkflowCompiler.Text.Split

/-!
# Placeholders in a text

A *slot* is two opening braces, a body without braces and two closing braces. A slot whose
body is not blank is a *placeholder*, and its body without the blanks at its ends is the
placeholder's *path*; a slot with a blank body is plain text.

A text is read from the left as a list of *pieces*, each a slot or a single character, a
slot wherever one starts (`pieces`). The pieces written one after the other give the text
back (`pieces_chars`). `scan` lists the placeholders with the bytes they take up in UTF-8.
-/

namespace WorkflowCompiler

/-- A piece of a text. -/
inductive Piece where
  /-- a character that starts no slot -/
  | char (c : Char)
  /-- a slot with its body -/
  | slot (body : List Char)
deriving DecidableEq

namespace Piece

/-- The characters a piece stands for. -/
def chars : Piece → List Char
  | .char c => [c]
  | .slot body => '\x7b' :: '\x7b' :: body ++ ['\x7d', '\x7d']

/-- The path of a placeholder; plain text has none. -/
def path? : Piece → Option String
  | .char _ => none
  | .slot body =>
    match Text.trimChars body with
    | [] => none
    | path => some (String.ofList path)

end Piece

/-! ## Reading a text as pieces -/

/-- The character is no brace. -/
def isBraceFree (c : Char) : Bool := c ≠ '\x7b' && c ≠ '\x7d'

/-- The body of the slot at the start of a text, and what follows the slot. -/
def slotAt? : List Char → Option (List Char × List Char)
  | '\x7b' :: '\x7b' :: cs =>
    match cs.dropWhile isBraceFree with
    | '\x7d' :: '\x7d' :: rest => some (cs.takeWhile isBraceFree, rest)
    | _ => none
  | _ => none

/-- A text starts with a slot exactly as that slot is written. -/
theorem eq_of_slotAt?_eq_some {cs body rest : List Char} (h : slotAt? cs = some (body, rest)) :
    cs = (Piece.slot body).chars ++ rest ∧ body.all isBraceFree = true := by
  simp only [slotAt?] at h
  split at h
  · rename_i cs'
    split at h
    · rename_i r hd
      cases h
      refine ⟨?_, by simp⟩
      have := List.takeWhile_append_dropWhile (p := isBraceFree) (l := cs')
      rw [hd] at this
      simp only [Piece.chars, List.cons_append, List.append_assoc, List.nil_append]
      rw [this]
    · cases h
  · cases h

theorem length_lt_of_slotAt? {cs body rest : List Char} (h : slotAt? cs = some (body, rest)) :
    rest.length < cs.length := by
  rw [(eq_of_slotAt?_eq_some h).1]
  simp [Piece.chars]
  omega

/-- The pieces of a text, from left to right. -/
def pieces : List Char → List Piece
  | [] => []
  | c :: cs =>
    match _h : slotAt? (c :: cs) with
    | some (body, rest) => .slot body :: pieces rest
    | none => .char c :: pieces cs
termination_by cs => cs.length
decreasing_by
  · exact length_lt_of_slotAt? _h
  · exact Nat.lt_succ_self _

@[simp] theorem pieces_nil : pieces [] = [] := by rw [pieces]

theorem pieces_of_slotAt?_eq_some {cs body rest : List Char}
    (h : slotAt? cs = some (body, rest)) : pieces cs = .slot body :: pieces rest := by
  cases cs with
  | nil => cases h
  | cons c cs =>
    rw [pieces]
    split
    · rename_i b r h'
      rw [h] at h'
      cases h'
      rfl
    · rename_i h'
      rw [h] at h'
      cases h'

theorem pieces_of_slotAt?_eq_none {c : Char} {cs : List Char} (h : slotAt? (c :: cs) = none) :
    pieces (c :: cs) = .char c :: pieces cs := by
  rw [pieces]
  split
  · rename_i b r h'
    rw [h] at h'
    cases h'
  · rfl

/-- Nothing of a text is lost in its pieces. -/
theorem pieces_chars (cs : List Char) : (pieces cs).flatMap Piece.chars = cs := by
  fun_induction pieces cs with
  | case1 => rfl
  | case2 c cs body rest h ih =>
    rw [List.flatMap_cons, ih]
    exact (eq_of_slotAt?_eq_some h).1.symm
  | case3 c cs h ih =>
    rw [List.flatMap_cons, ih]
    rfl

/-! ## Texts without slots -/

/-- Two opening braces stand next to each other somewhere in the text. -/
def opensSlot : List Char → Bool
  | [] => false
  | c :: cs => ['\x7b', '\x7b'].isPrefixOf (c :: cs) || opensSlot cs

theorem opensSlot_of_slotAt?_eq_some {cs body rest : List Char}
    (h : slotAt? cs = some (body, rest)) : opensSlot cs = true := by
  rw [(eq_of_slotAt?_eq_some h).1]
  rfl

/-- A text without two opening braces next to each other is plain. -/
theorem pieces_of_opensSlot_eq_false {cs : List Char} (h : opensSlot cs = false) :
    pieces cs = cs.map .char := by
  fun_induction pieces cs with
  | case1 => rfl
  | case2 c cs body rest hslot ih =>
    rw [opensSlot_of_slotAt?_eq_some hslot] at h
    cases h
  | case3 c cs hslot ih =>
    rw [opensSlot, Bool.or_eq_false_iff] at h
    rw [List.map_cons, ih h.2]

/-! ## Placeholders and where they stand -/

/-- A placeholder of a text. -/
structure Placeholder where
  /-- the byte at which its first brace stands -/
  start : Nat
  /-- the byte after its last brace -/
  stop : Nat
  /-- its body, without the blanks at the ends -/
  path : String
deriving DecidableEq

/-- The number of bytes of the characters in UTF-8. -/
def byteLength : List Char → Nat
  | [] => 0
  | c :: cs => c.utf8Size + byteLength cs

/-- The placeholders among pieces of which the first stands at a byte. -/
def placeholdersFrom (offset : Nat) : List Piece → List Placeholder
  | [] => []
  | piece :: rest =>
    let next := offset + byteLength piece.chars
    match piece.path? with
    | some path => ⟨offset, next, path⟩ :: placeholdersFrom next rest
    | none => placeholdersFrom next rest

/-- The placeholders of a text, from left to right. -/
def scan (text : String) : List Placeholder := placeholdersFrom 0 (pieces text.toList)

/-- The text holds a placeholder. It is read only if two opening braces stand next to each other
in it. -/
def hasPlaceholders (text : String) : Bool := opensSlot text.toList && !(scan text).isEmpty

/-- The paths of the placeholders of a text, from left to right. -/
def placeholderPaths (text : String) : List String :=
  (pieces text.toList).filterMap Piece.path?

theorem placeholdersFrom_map_path (offset : Nat) (ps : List Piece) :
    (placeholdersFrom offset ps).map Placeholder.path = ps.filterMap Piece.path? := by
  induction ps generalizing offset with
  | nil => rfl
  | cons p ps ih =>
    simp only [placeholdersFrom, List.filterMap_cons]
    cases p.path? with
    | none => exact ih _
    | some path => simp [ih]

theorem scan_map_path (text : String) : (scan text).map Placeholder.path = placeholderPaths text :=
  placeholdersFrom_map_path 0 _

theorem placeholderPaths_of_opensSlot_eq_false {text : String}
    (h : opensSlot text.toList = false) : placeholderPaths text = [] := by
  rw [placeholderPaths, pieces_of_opensSlot_eq_false h, List.filterMap_map,
    List.filterMap_eq_nil_iff]
  exact fun _ _ => rfl

/-- Looking for opening braces first misses no placeholder. -/
theorem hasPlaceholders_eq (text : String) : hasPlaceholders text = !(scan text).isEmpty := by
  rw [hasPlaceholders]
  cases h : opensSlot text.toList with
  | true => rfl
  | false =>
    have hscan : scan text = [] :=
      List.map_eq_nil_iff.1 ((scan_map_path text).trans (placeholderPaths_of_opensSlot_eq_false h))
    rw [hscan]
    rfl

end WorkflowCompiler
