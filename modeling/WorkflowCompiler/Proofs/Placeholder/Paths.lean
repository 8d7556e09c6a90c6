import WorkflowCompiler.Placeholder.Path

/-!
# What paths are read as

Validation takes the segments of a path as they stand, and resolving takes them without the blanks
around them. What is spelled like a reference to outputs is resolved as one
(`ofPath_of_isOutputReference`), and what is not may still be.
-/

namespace WorkflowCompiler

theorem exists_segments (path : String) : ∃ rest, Path.segments path = Path.root path :: rest := by
  rcases hsegments : Path.segments path with _ | ⟨first, rest⟩
  · have hne : Path.segments path ≠ [] := by
      rw [Path.segments, Text.split, ne_eq, List.map_eq_nil_iff]
      exact Text.splitOn_ne_nil _ _
    exact absurd hsegments hne
  · exact ⟨rest, by rw [Path.root, hsegments, List.headD_cons]⟩

theorem eq_of_segments_eq_singleton {path segment : String} (h : Path.segments path = [segment]) :
    segment = path := by
  obtain ⟨cs, hcs, rfl⟩ := List.map_eq_singleton_iff.1 h
  have hjoin := Text.join_splitOn '.' path.toList
  rw [hcs, Text.joinWith] at hjoin
  rw [hjoin, String.ofList_toList]

/-- Segments name outputs, or else what their first one is bound to. -/
theorem ofSegments_cons (first : String) (rest : List String) :
    (∃ step fields, Referent.ofSegments (first :: rest) = .output step fields) ∨
      Referent.ofSegments (first :: rest) = .binding first rest := by
  rcases rest with _ | ⟨second, rest⟩
  · exact .inr rfl
  · rw [Referent.ofSegments]
    split
    · exact .inl ⟨_, _, rfl⟩
    · split
      · exact .inl ⟨_, _, rfl⟩
      · exact .inr rfl

theorem isOutputReference_iff {path : String} :
    Path.isOutputReference path = true ↔ ∃ first second rest,
      Path.segments path = first :: second :: rest ∧ (first = "output" ∨ second = "outputs") := by
  rw [Path.isOutputReference]
  split
  · rename_i first second rest hsegments
    rw [hsegments, Bool.or_eq_true, decide_eq_true_eq, decide_eq_true_eq]
    constructor
    · exact fun h => ⟨first, second, rest, rfl, h⟩
    · rintro ⟨_, _, _, ⟨⟩, h⟩
      exact h
  · rename_i hshort
    refine ⟨fun h => absurd h Bool.false_ne_true, ?_⟩
    rintro ⟨first, second, rest, hsegments, -⟩
    exact absurd hsegments (hshort first second rest)

theorem ofPath_eq_output_iff {path : String} :
    (∃ step fields, Referent.ofPath path = .output step fields) ↔ ∃ first second rest,
      Path.segments path = first :: second :: rest ∧
        (Text.trim first = "output" ∨ Text.trim second = "outputs") := by
  rw [Referent.ofPath, Path.trimmedSegments]
  constructor
  · rintro ⟨step, fields, h⟩
    rcases hsegments : Path.segments path with _ | ⟨first, _ | ⟨second, rest⟩⟩
    · rw [hsegments] at h
      cases h
    · rw [hsegments] at h
      cases h
    · refine ⟨first, second, rest, rfl, ?_⟩
      rw [hsegments, List.map_cons, List.map_cons, Referent.ofSegments] at h
      split at h
      · rename_i hfirst
        exact .inl hfirst
      · split at h
        · rename_i hsecond
          exact .inr hsecond
        · cases h
  · rintro ⟨first, second, rest, hsegments, hnames⟩
    rw [hsegments, List.map_cons, List.map_cons, Referent.ofSegments]
    by_cases hfirst : Text.trim first = "output"
    · exact ⟨_, _, if_pos hfirst⟩
    · rw [if_neg hfirst, if_pos (hnames.resolve_left hfirst)]
      exact ⟨_, _, rfl⟩

/-- What is read as a reference to outputs is resolved as one. -/
theorem ofPath_of_isOutputReference {path : String} (h : Path.isOutputReference path = true) :
    ∃ step fields, Referent.ofPath path = .output step fields := by
  -- a segment that is a name has no blanks at its ends
  have hnames : Text.trim "output" = "output" ∧ Text.trim "outputs" = "outputs" := by decide
  obtain ⟨first, second, rest, hsegments, h⟩ := isOutputReference_iff.1 h
  refine ofPath_eq_output_iff.2 ⟨first, second, rest, hsegments, ?_⟩
  rcases h with rfl | rfl
  · exact .inl hnames.1
  · exact .inr hnames.2

end WorkflowCompiler
