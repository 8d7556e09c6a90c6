import WorkflowCompiler.Proofs.Compilation.Composed
import WorkflowCompiler.Proofs.Context.Provided
import WorkflowCompiler.Proofs.Placeholder.Paths

/-!
# Checked texts and compiled texts

A validation looks at the placeholders of certain texts of a step, and compiling the step
substitutes certain texts. The two are not the same: the mode of an agent is compiled and not
checked, and neither are texts inside lists and objects (`Step.mem_texts_or_uncheckedTexts`). Also,
the check is about the root of a path as it is written, and the title of a repetition is checked as
if it was compiled for each of its items.

A step is *covered* by the check if it does not get in between (`Step.Covered`). Then everything
that its compiled texts refer to is bound when they are compiled (`Step.Covered.fine`).
-/

namespace WorkflowCompiler

/-! ## Which texts are checked -/

/-- The members of a table that are texts. -/
def plainStrings (values : Fields Json) : List String :=
  values.filterMap fun entry =>
    match entry.2 with
    | .str text => some text
    | _ => none

/-- The texts inside of a list or an object. -/
def Json.nestedStrings : Json → List String
  | .str _ => []
  | value => value.strings

/-- The texts inside of the lists and objects of a table. -/
def nestedStrings (values : Fields Json) : List String :=
  values.flatMap fun entry => entry.2.nestedStrings

/-- The texts that are compiled, but whose placeholders are not checked. -/
def Step.uncheckedTexts (s : Step) : List String :=
  match s.classify? with
  | none => []
  | some c =>
    match c.executor with
    | .agent => s.mode.toList
    | .expand | .foreach => nestedStrings s.vars
    | .branch => s.targets.flatMap fun entry => nestedStrings entry.2.vars
    | _ => []

section Texts

variable {s : Step} {text : String}

theorem map_snd_textField (name : String) (value : Option String) :
    (textField name value).map Prod.snd = value.toList := by
  cases value <;> rfl

theorem map_snd_textValues (name : String) (values : Fields Json) :
    (textValues name values).map Prod.snd = plainStrings values := by
  rw [textValues, plainStrings, List.map_filterMap]
  refine List.filterMap_congr fun entry _ => ?_
  cases entry.2 <;> rfl

theorem map_snd_settingText (name : String) (value : Option Setting) :
    (settingText name value).map Prod.snd = (value.bind Setting.string?).toList := by
  rcases value with _ | value
  · rfl
  · cases value <;> rfl

theorem mem_plainStrings_or_nestedStrings {values : Fields Json} (h : text ∈ valueStrings values) :
    text ∈ plainStrings values ∨ text ∈ nestedStrings values := by
  obtain ⟨entry, hentry, htext⟩ := List.mem_flatMap.1 h
  cases hvalue : entry.2 with
  | str value =>
    rw [hvalue, Json.strings, List.mem_singleton] at htext
    exact .inl (List.mem_filterMap.2 ⟨entry, hentry, by rw [hvalue, htext]⟩)
  | _ =>
    refine .inr (List.mem_flatMap.2 ⟨entry, hentry, ?_⟩)
    rw [hvalue] at htext ⊢
    exact htext

theorem mem_orElse_toList {a b : Option String} (h : text ∈ (a <|> b).toList) :
    text ∈ a.toList ∨ text ∈ b.toList := by
  cases a with
  | none => exact .inr h
  | some a => exact .inl h

/-- The texts that a validation looks at. -/
theorem Step.map_snd_texts (s : Step) :
    s.texts.map Prod.snd =
      s.title.toList ++ s.command.toList ++ s.code.toList ++ s.workdir.toList ++ s.agent.toList ++
      s.assignee.toList ++ s.adapter.toList ++ s.prompt.toList ++ s.instructions.toList ++
      s.timeout.toList ++ s.template.toList ++ s.items.toList ++ s.itemsFile.toList ++
      s.condition.toList ++ s.env.map Prod.snd ++ plainStrings s.vars ++ s.spawnArgs ++
      (s.parallel.bind Setting.string?).toList ++ (s.maxConcurrent.bind Setting.string?).toList ++
      s.targets.flatMap fun entry => entry.2.template.toList ++ plainStrings entry.2.vars := by
  have henv : (s.env.map fun entry => ("env." ++ entry.1, entry.2)).map Prod.snd =
      s.env.map Prod.snd := by
    rw [List.map_map]
    rfl
  have hnumbered : (s.spawnArgs.zipIdx.map fun entry =>
      ("spawn_args[" ++ toString entry.2 ++ "]", entry.1)).map Prod.snd = s.spawnArgs := by
    rw [List.map_map]
    exact List.zipIdx_map_fst ..
  have htargets : (s.targets.flatMap fun entry => entry.2.texts entry.1.name).map Prod.snd =
      s.targets.flatMap fun entry => entry.2.template.toList ++ plainStrings entry.2.vars := by
    simp only [List.map_flatMap, Target.texts, List.map_append, map_snd_textField,
      map_snd_textValues]
  unfold Step.texts
  simp only [List.map_append, map_snd_textField, map_snd_textValues, map_snd_settingText]
  rw [henv, hnumbered, htargets]

/-- A text that is given in one of the fields that are checked is checked. -/
theorem mem_texts_of_field (h : text ∈ s.title.toList ∨ text ∈ s.commandText.toList ∨
    text ∈ s.workdir.toList ∨ text ∈ s.agentName.toList ∨ text ∈ s.adapter.toList ∨
    text ∈ s.promptText.toList ∨ text ∈ s.timeout.toList ∨ text ∈ s.template.toList ∨
    text ∈ s.items.toList ∨ text ∈ s.itemsFile.toList ∨ text ∈ s.condition.toList) :
    text ∈ s.texts.map Prod.snd := by
  rw [Step.map_snd_texts]
  simp only [List.mem_append]
  rcases h with h | h | h | h | h | h | h | h | h | h | h
  case inr.inl | inr.inr.inr.inl | inr.inr.inr.inr.inr.inl =>
    rcases mem_orElse_toList h with h | h <;> simp only [h, true_or, or_true]
  all_goals simp only [h, true_or, or_true]

/-- A text that is given in one of the lists or settings that are checked is checked. -/
theorem mem_texts_of_list (h : text ∈ s.env.map Prod.snd ∨ text ∈ plainStrings s.vars ∨
    text ∈ s.spawnArgs ∨ text ∈ (s.parallel.bind Setting.string?).toList ∨
    text ∈ (s.maxConcurrent.bind Setting.string?).toList) : text ∈ s.texts.map Prod.snd := by
  rw [Step.map_snd_texts]
  simp only [List.mem_append]
  rcases h with h | h | h | h | h <;> simp only [h, true_or, or_true]

theorem mem_texts_of_target {o : Outcome} {t : Target Step} (ht : s.target? o = some t)
    (h : text ∈ t.template.toList ∨ text ∈ plainStrings t.vars) :
    text ∈ s.texts.map Prod.snd := by
  rw [Step.map_snd_texts]
  refine List.mem_append_right _ (List.mem_flatMap.2 ⟨(o, t), Step.mem_targets.2 ht, ?_⟩)
  exact List.mem_append.2 h

/-! ## Which texts are compiled -/

/-- The step is a repetition. -/
def Step.IsRepetition (s : Step) : Prop := ∃ c, s.classify? = some c ∧ c.executor = .foreach

/-- The text has no placeholders, or its placeholders are checked, or it is one of those whose
placeholders are not. -/
def Step.Lists (s : Step) (text : String) : Prop :=
  text = "" ∨ text ∈ s.texts.map Prod.snd ∨ text ∈ s.uncheckedTexts

theorem lists_of_field (h : text ∈ s.title.toList ∨ text ∈ s.commandText.toList ∨
    text ∈ s.workdir.toList ∨ text ∈ s.agentName.toList ∨ text ∈ s.adapter.toList ∨
    text ∈ s.promptText.toList ∨ text ∈ s.timeout.toList ∨ text ∈ s.template.toList ∨
    text ∈ s.items.toList ∨ text ∈ s.itemsFile.toList ∨ text ∈ s.condition.toList) :
    s.Lists text :=
  .inr (.inl (mem_texts_of_field h))

theorem lists_of_list (h : text ∈ s.env.map Prod.snd ∨ text ∈ plainStrings s.vars ∨
    text ∈ s.spawnArgs ∨ text ∈ (s.parallel.bind Setting.string?).toList ∨
    text ∈ (s.maxConcurrent.bind Setting.string?).toList) : s.Lists text :=
  .inr (.inl (mem_texts_of_list h))

theorem lists_getD {value : Option String} (h : ∀ v ∈ value.toList, s.Lists v) :
    s.Lists (value.getD "") := by
  cases value with
  | none => exact .inl rfl
  | some v => exact h v (by simp)

variable {c : Classification}

/-- Variables that are put in: their texts are checked, but for the nested ones. -/
theorem lists_of_vars (hclass : s.classify? = some c)
    (hexecutor : c.executor = .expand ∨ c.executor = .foreach) (h : text ∈ valueStrings s.vars) :
    s.Lists text := by
  rcases mem_plainStrings_or_nestedStrings h with h | h
  · exact lists_of_list (by simp only [h, true_or, or_true])
  · refine .inr (.inr ?_)
    rw [Step.uncheckedTexts, hclass]
    rcases hexecutor with hexecutor | hexecutor <;> simpa only [hexecutor] using h

theorem lists_of_mem_fieldTexts (hclass : s.classify? = some c) (h : text ∈ s.fieldTexts c) :
    s.Lists text := by
  rw [Declaration.fieldTexts] at h
  have hcommand : s.Lists (s.commandText.getD "") :=
    lists_getD fun v hv => lists_of_field (by simp only [hv, true_or, or_true])
  have hprompt : s.Lists (s.promptText.getD "") :=
    lists_getD fun v hv => lists_of_field (by simp only [hv, true_or, or_true])
  cases hexecutor : c.executor with
  | shell =>
    simp only [hexecutor, List.mem_cons, List.mem_append] at h
    rcases h with rfl | h | h
    · exact hcommand
    · exact lists_of_field (by simp only [h, true_or, or_true])
    · exact lists_of_list (.inl h)
  | spawn =>
    simp only [hexecutor, List.mem_append] at h
    rcases h with (((h | h) | h) | h) | h
    · exact lists_of_list (by simp only [h, true_or, or_true])
    · exact lists_of_field (by simp only [h, true_or, or_true])
    · exact lists_of_field (by simp only [h, true_or, or_true])
    · exact lists_of_list (.inl h)
    · exact lists_of_field (by simp only [h, true_or, or_true])
  | kill =>
    simp only [hexecutor] at h
    exact lists_of_field (by simp only [h, true_or, or_true])
  | expand =>
    simp only [hexecutor, List.mem_append] at h
    rcases h with h | h
    · exact lists_of_field (by simp only [h, true_or, or_true])
    · exact lists_of_vars hclass (.inl hexecutor) h
  | foreach =>
    simp only [hexecutor] at h
    cases h
  | branch =>
    simp only [hexecutor, List.mem_append] at h
    rcases h with (((h | h) | h) | h) | h
    · cases hgate : c.gate with
      | true =>
        rw [hgate, if_pos rfl] at h
        cases h
      | false =>
        rw [hgate, if_neg Bool.false_ne_true] at h
        exact lists_of_field (by simp only [h, or_true])
    · exact lists_of_field (by simp only [h, true_or, or_true])
    · exact lists_of_field (by simp only [h, true_or, or_true])
    · exact lists_of_list (.inl h)
    · exact lists_of_field (by simp only [h, true_or, or_true])
  | agent =>
    simp only [hexecutor, List.mem_append, List.mem_singleton] at h
    rcases h with h | rfl
    · refine .inr (.inr ?_)
      rw [Step.uncheckedTexts, hclass]
      simpa only [hexecutor] using h
    · exact hprompt

theorem lists_of_mem_repetitionTexts (hclass : s.classify? = some c)
    (hexecutor : c.executor = .foreach) (h : text ∈ s.repetitionTexts) : s.Lists text := by
  simp only [Declaration.repetitionTexts, List.mem_append] at h
  rcases h with ((((h | h) | h) | h) | h) | h
  · exact lists_of_list (by simp only [h, true_or, or_true])
  · exact lists_of_list (by simp only [h, or_true])
  · exact lists_of_field (by simp only [h, true_or, or_true])
  · exact lists_of_vars hclass (.inr hexecutor) h
  · exact lists_of_field (by simp only [h, true_or, or_true])
  · exact lists_of_field (by simp only [h, true_or, or_true])

theorem lists_of_mem_target (hclass : s.classify? = some c) (hexecutor : c.executor = .branch)
    {o : Outcome} {t : Target Step} (ht : s.target? o = some t) (h : text ∈ t.compiledTexts) :
    s.Lists text := by
  rw [Target.compiledTexts, List.mem_append] at h
  rcases h with h | h
  · exact .inr (.inl (mem_texts_of_target ht (.inl h)))
  · rcases mem_plainStrings_or_nestedStrings h with h | h
    · exact .inr (.inl (mem_texts_of_target ht (.inr h)))
    · refine .inr (.inr ?_)
      rw [Step.uncheckedTexts, hclass]
      simp only [hexecutor]
      exact List.mem_flatMap.2 ⟨(o, t), Step.mem_targets.2 ht, h⟩

/-- A compiled text is the title or names the agent; or else its placeholders are checked or it
is one of the unchecked texts, and in a repetition the names for its items are bound late. -/
theorem Step.mem_texts_or_uncheckedTexts {entry : List String × String}
    (h : entry ∈ s.compiledTexts) :
    (entry.1 = [] ∧ entry.2 ∈ s.title.toList ++ s.agentName.toList) ∨
      s.Lists entry.2 ∧ (entry.1 = s.repetitionRoots ∨ entry.1 = [] ∧ ¬ s.IsRepetition) := by
  rw [Step.compiledTexts, List.mem_append] at h
  rcases h with h | h
  · obtain ⟨v, hv, rfl⟩ := List.mem_map.1 h
    exact .inl ⟨rfl, List.mem_append_right _ hv⟩
  · rcases hclass : s.classify? with _ | c
    · rw [hclass] at h
      cases h
    · rw [hclass] at h
      have hother : ∀ {executor : Executor}, c.executor = executor → executor ≠ .foreach →
          ¬ s.IsRepetition := by
        rintro executor hexecutor hne ⟨c', hclass', hrepetition⟩
        rw [hclass, Option.some.injEq] at hclass'
        subst hclass'
        exact hne (hexecutor.symm.trans hrepetition)
      simp only [List.map_append, List.mem_append] at h
      rcases h with (h | h) | h
      · obtain ⟨v, hv, rfl⟩ := List.mem_map.1 h
        exact .inl ⟨rfl, List.mem_append_left _ hv⟩
      · obtain ⟨v, hv, rfl⟩ := List.mem_map.1 h
        refine .inr ⟨lists_of_mem_fieldTexts hclass hv, .inr ⟨rfl, ?_⟩⟩
        -- the fields of a repetition are not among these
        cases hexecutor : c.executor with
        | foreach =>
          simp only [Declaration.fieldTexts, hexecutor] at hv
          cases hv
        | _ => exact hother hexecutor (by decide)
      · cases hexecutor : c.executor with
        | foreach =>
          simp only [hexecutor] at h
          obtain ⟨v, hv, rfl⟩ := List.mem_map.1 h
          exact .inr ⟨lists_of_mem_repetitionTexts hclass hexecutor hv, .inl rfl⟩
        | branch =>
          simp only [hexecutor] at h
          obtain ⟨v, hv, rfl⟩ := List.mem_map.1 h
          obtain ⟨⟨o, t⟩, ht, hv⟩ := List.mem_flatMap.1 hv
          exact .inr ⟨lists_of_mem_target hclass hexecutor (Step.mem_targets.1 ht) hv,
            .inr ⟨rfl, hother hexecutor (by decide)⟩⟩
        | _ =>
          simp only [hexecutor] at h
          cases h

end Texts

/-! ## Roots that are bound -/

/-- The builtins that every step has. -/
def runRoots : List String := [agentRoot, "bead_id", "step_id", "workflow_id", "molecule_id"]

/-- What every text of a workflow may refer to: its variables and the builtins of a step. -/
def Workflow.boundNames (w : Workflow) : List String := w.vars.names ++ runRoots

/-- The check reads the path as it is resolved: it leads to outputs, or no blanks stand around its
root, and if that is a name of the clock, nothing follows it. -/
def Workflow.ReadsAlike (w : Workflow) (path : String) : Prop :=
  Path.isOutputReference path = true ∨
    Text.trim (Path.root path) = Path.root path ∧
      (Path.root path ∈ clockNames →
        Path.root path ∈ w.vars.names ∨ Path.segments path = [Path.root path])

instance (w : Workflow) (path : String) : Decidable (w.ReadsAlike path) :=
  inferInstanceAs (Decidable (_ ∨ _ ∧ (_ → _ ∨ _)))

/-- The check of the placeholders of a step is about all that its compiled texts refer to. -/
structure Step.Covered (w : Workflow) (s : Step) : Prop where
  /-- no placeholders come in with braces that stand next to each other -/
  tidy : ∀ entry ∈ s.compiledTexts, TidyText entry.2
  /-- paths are read alike when they are checked and when they are resolved -/
  read_alike : ∀ entry ∈ s.compiledTexts, ∀ path ∈ placeholderPaths entry.2, w.ReadsAlike path
  /-- texts that are not checked use what the step may use -/
  unchecked : ∀ text ∈ s.uncheckedTexts, ∀ p ∈ scan text,
    p.isOutputReference = true ∨ s.MayUse w p.root
  /-- the title and the agent do not depend on the items of a repetition -/
  outside : ∀ text ∈ s.title.toList ++ s.agentName.toList, ∀ p ∈ scan text,
    p.isOutputReference = true ∨ p.root ∈ w.vars.names ∨ p.root ∈ builtinNames
  /-- a repetition does not take the name of the agent for its own -/
  agent_free : s.IsRepetition → agentRoot ∈ s.repetitionRoots → agentRoot ∈ w.vars.names

section Covered

variable {w : Workflow} {s : Step}

theorem mem_builtinNames_iff {name : String} :
    name ∈ builtinNames ↔ name ∈ clockNames ∨ name ∈ runRoots := by
  simp only [builtinNames, clockNames, runRoots, agentRoot, List.mem_cons, List.not_mem_nil,
    or_false, or_assoc]

/-- A path with a root that is known is provided for, if it is read alike. -/
theorem Workflow.ReadsAlike.provided {path : String} {late : List String} (h : w.ReadsAlike path)
    (hroot : Path.isOutputReference path = true ∨ Path.root path ∈ late ∨
      Path.root path ∈ w.vars.names ∨ Path.root path ∈ builtinNames) :
    Provided (late ++ w.boundNames) path := by
  by_cases hreference : Path.isOutputReference path = true
  · obtain ⟨step, fields, houtput⟩ := ofPath_of_isOutputReference hreference
    rw [Provided, houtput]
    trivial
  · obtain ⟨htrim, hclock⟩ := h.resolve_left hreference
    obtain ⟨rest, hsegments⟩ := exists_segments path
    have hpath : Referent.ofPath path = .ofSegments (Path.root path :: rest.map Text.trim) := by
      rw [Referent.ofPath, Path.trimmedSegments, hsegments, List.map_cons, htrim]
    have hknown : Path.root path ∈ late ++ w.boundNames ∨
        rest.map Text.trim = [] ∧ Path.root path ∈ clockNames := by
      rw [List.mem_append, Workflow.boundNames, List.mem_append]
      rcases hroot.resolve_left hreference with hlate | hvar | hbuiltin
      · exact .inl (.inl hlate)
      · exact .inl (.inr (.inl hvar))
      · rcases mem_builtinNames_iff.1 hbuiltin with hmoment | hrun
        · refine (hclock hmoment).imp (fun hvar => .inr (.inl hvar)) fun hwhole => ⟨?_, hmoment⟩
          rw [hsegments, List.cons.injEq] at hwhole
          rw [hwhole.2, List.map_nil]
        · exact .inl (.inr (.inr hrun))
    rw [Provided, hpath]
    rcases ofSegments_cons (Path.root path) (rest.map Text.trim) with ⟨step, fields, h⟩ | h
    · rw [h]
      trivial
    · rw [h]
      exact hknown

/-- Everything that the compiled texts of a covered step refer to is bound when they are
compiled. -/
theorem Step.Covered.fine (h : s.Covered w) (hrules : s.WellFormed w) :
    ∀ entry ∈ s.compiledTexts, Fine (entry.1 ++ w.boundNames) entry.2 := by
  have hempty : scan "" = [] := by rw [scan, String.toList_empty, pieces_nil, placeholdersFrom]
  intro entry hentry
  refine ⟨h.tidy entry hentry, fun path hpath => ?_⟩
  refine (h.read_alike entry hentry path hpath).provided ?_
  rw [← scan_map_path] at hpath
  obtain ⟨p, hp, rfl⟩ := List.mem_map.1 hpath
  rcases Step.mem_texts_or_uncheckedTexts hentry with ⟨-, houtside⟩ | ⟨hlists, hroots⟩
  · exact (h.outside entry.2 houtside p hp).imp_right .inr
  · have hmay : p.isOutputReference = true ∨ s.MayUse w p.root := by
      rcases hlists with hnone | hchecked | hunchecked
      · rw [hnone, hempty] at hp
        cases hp
      · obtain ⟨field, hfield, htext⟩ := List.mem_map.1 hchecked
        rw [← htext] at hp
        exact hrules.mayUse field hfield p hp
      · exact h.unchecked entry.2 hunchecked p hp
    refine hmay.imp_right ?_
    rintro (hvar | hbuiltin | ⟨hrepetition, hitem⟩)
    · exact .inr (.inl hvar)
    · exact .inr (.inr hbuiltin)
    · rcases hroots with hroots | ⟨-, hnot⟩
      · refine .inl ?_
        rw [hroots, Declaration.repetitionRoots, List.mem_cons, Option.mem_toList]
        exact hitem
      · exact absurd hrepetition hnot

end Covered

end WorkflowCompiler
