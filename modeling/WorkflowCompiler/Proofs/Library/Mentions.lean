import WorkflowCompiler.Library.Tree

/-!
# What a workflow refers to

A step mentions the templates that it puts in itself, those of its outcomes, and what the inline
steps of its outcomes mention, at any depth (`Step.Mentions`). The references of a workflow that can
be followed are the texts among these that have no placeholders (`mem_references_iff`).
-/

namespace WorkflowCompiler

/-- A step names a template, itself, for an outcome, or in an inline step. -/
inductive Step.Mentions : Step → String → Prop
  | own {s : Step} {text : String} (h : s.template = some text) : Mentions s text
  | target {s : Step} {o : Outcome} {t : Target Step} {text : String} (ht : s.target? o = some t)
      (h : t.template = some text) : Mentions s text
  | inline {s i : Step} {o : Outcome} {t : Target Step} {text : String} (ht : s.target? o = some t)
      (hi : i ∈ t.inline) (h : Mentions i text) : Mentions s text

/-- A step of the workflow mentions the text, which can be followed. -/
def Workflow.RefersBy (w : Workflow) (text : String) : Prop :=
  hasPlaceholders text = false ∧ ∃ s ∈ w.steps, s.Mentions text

theorem mem_addNew {found texts : List String} {text : String} :
    text ∈ addNew found texts ↔ text ∈ found ∨ text ∈ texts := by
  induction texts generalizing found with
  | nil => simp [addNew]
  | cons other texts ih =>
    rw [addNew, ih]
    by_cases h : other ∈ found
    · rw [if_pos h, List.mem_cons]
      constructor
      · exact Or.imp_right .inr
      · rintro (hfound | rfl | htexts)
        · exact .inl hfound
        · exact .inl h
        · exact .inr htexts
    · rw [if_neg h, List.mem_append, List.mem_singleton, List.mem_cons, or_assoc]

theorem mem_followable {templates : List String} {text : String} :
    text ∈ followable templates ↔ text ∈ templates ∧ hasPlaceholders text = false := by
  simp [followable]

/-- A step mentions its own templates, and what its inline steps mention. -/
theorem Step.mentions_iff {s : Step} {text : String} :
    s.Mentions text ↔ s.template = some text ∨
      ∃ o t, s.target? o = some t ∧ (t.template = some text ∨ ∃ i ∈ t.inline, i.Mentions text) := by
  constructor
  · rintro (h | ⟨ht, h⟩ | ⟨ht, hi, h⟩)
    · exact .inl h
    · exact .inr ⟨_, _, ht, .inl h⟩
    · exact .inr ⟨_, _, ht, .inr ⟨_, hi, h⟩⟩
  · rintro (h | ⟨o, t, ht, h | ⟨i, hi, h⟩⟩)
    · exact .own h
    · exact .target ht h
    · exact .inline ht hi h

theorem exists_outcome {p : Outcome → Prop} :
    (∃ o, p o) ↔ p .onTrue ∨ p .onFalse ∨ p .onTimeout := by
  constructor
  · rintro ⟨_ | _ | _, h⟩
    · exact .inl h
    · exact .inr (.inl h)
    · exact .inr (.inr h)
  · rintro (h | h | h)
    · exact ⟨_, h⟩
    · exact ⟨_, h⟩
    · exact ⟨_, h⟩

mutual

theorem mem_stepReferences_iff {text : String} :
    ∀ (found : List String) (s : Step), text ∈ stepReferences found s ↔
      text ∈ found ∨ hasPlaceholders text = false ∧ s.Mentions text
  | found, ⟨d, onTrue, onFalse, onTimeout⟩ => by
    rw [stepReferences, Step.mentions_iff, exists_outcome]
    simp only [mem_outcomeReferences_iff, mem_addNew, mem_followable, List.mem_append,
      Option.mem_toList, List.mem_filterMap, Step.target?]
    grind

theorem mem_outcomeReferences_iff {text : String} :
    ∀ (found : List String) (target : Option (Target Step)),
      text ∈ outcomeReferences found target ↔
        text ∈ found ∨ hasPlaceholders text = false ∧
          ∃ t, target = some t ∧ ∃ i ∈ t.inline, i.Mentions text
  | found, none => by simp [outcomeReferences]
  | found, some ⟨template, vars, inline⟩ => by
    rw [outcomeReferences, mem_stepsReferences_iff]
    simp

theorem mem_stepsReferences_iff {text : String} :
    ∀ (found : List String) (steps : List Step), text ∈ stepsReferences found steps ↔
      text ∈ found ∨ hasPlaceholders text = false ∧ ∃ s ∈ steps, s.Mentions text
  | found, [] => by simp [stepsReferences]
  | found, s :: rest => by
    rw [stepsReferences, mem_stepsReferences_iff, mem_stepReferences_iff, or_assoc, ← and_or_left]
    simp

end

/-- The references of a workflow are what its steps mention and can be followed. -/
theorem mem_references_iff {w : Workflow} {text : String} :
    text ∈ references w.steps ↔ w.RefersBy text := by
  rw [references, mem_stepsReferences_iff]
  simp [Workflow.RefersBy]

end WorkflowCompiler
