import WorkflowCompiler.Proofs.Context.Substitution

/-!
# Texts whose placeholders resolve

Where every placeholder of a text resolves to a value (`Context.Resolves`), one pass over the text
puts the written value in the place of each placeholder (`Context.written`) and leaves the rest as
it stands (`Context.expandIn_of_resolves`).
-/

namespace WorkflowCompiler

namespace Context

/-- The path resolves to a value. -/
def Resolves (c : Context) (path : String) : Prop := ∃ value, c.resolveIn path = .ok (.value value)

instance (c : Context) (path : String) : Decidable (c.Resolves path) :=
  match h : c.resolveIn path with
  | .ok (.value value) => .isTrue ⟨value, h⟩
  | .ok .deferred => .isFalse fun ⟨value, hvalue⟩ => by simp [h] at hvalue
  | .error e => .isFalse fun ⟨value, hvalue⟩ => by simp [h] at hvalue

/-- What stands in the place of a piece after a pass. -/
def written (c : Context) (write : Json → String) (piece : Piece) : List Char :=
  match piece.path? with
  | none => piece.chars
  | some path =>
    match c.resolveIn path with
    | .ok (.value value) => (write value).toList
    | _ => piece.chars

variable {c : Context} {write : Json → String} {piece : Piece} {ps : List Piece}

theorem written_of_path?_eq_none (h : piece.path? = none) :
    c.written write piece = piece.chars := by
  rw [written, h]

theorem written_of_resolveIn {path : String} {value : Json} (h : piece.path? = some path)
    (hvalue : c.resolveIn path = .ok (.value value)) :
    c.written write piece = (write value).toList := by
  simp only [written, h, hvalue]

theorem expandPieceIn_of_resolves (h : ∀ path, piece.path? = some path → c.Resolves path) :
    c.expandPieceIn write piece = .ok (c.written write piece, piece.path?.isSome) := by
  rcases hpath : piece.path? with _ | path
  · rw [written_of_path?_eq_none hpath, expandPieceIn, hpath]
    rfl
  · obtain ⟨value, hvalue⟩ := h path hpath
    rw [written_of_resolveIn hpath hvalue, expandPieceIn, hpath]
    simp only [hvalue]
    rfl

/-- A pass replaces every placeholder that resolves, and says whether there was one. -/
theorem expandIn_of_resolves (h : ∀ path ∈ ps.filterMap Piece.path?, c.Resolves path) :
    c.expandIn write ps =
      .ok (ps.flatMap (c.written write), ps.any fun piece => piece.path?.isSome) := by
  induction ps with
  | nil => rfl
  | cons piece rest ih =>
    obtain ⟨hhead, hrest⟩ := forall_mem_paths_cons.1 h
    rw [expandIn, expandPieceIn_of_resolves hhead, ih hrest]
    rfl

end Context

/-- What a substitution ends with is a function of the context. -/
theorem substitute_fst (text : String) (s : Session) :
    (substitute text s).1 = s.context.substituteIn text := by
  obtain ⟨s', hs, -⟩ := reads_substitute text s
  rw [hs]

theorem substituteShell_fst (text : String) (s : Session) :
    (substituteShell text s).1 = s.context.substituteShellIn text := by
  obtain ⟨s', hs, -⟩ := reads_substituteShell text s
  rw [hs]

end WorkflowCompiler
