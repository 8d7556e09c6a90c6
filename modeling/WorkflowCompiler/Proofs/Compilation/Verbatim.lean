import WorkflowCompiler.Proofs.Compilation.Composed
import WorkflowCompiler.Proofs.Compilation.Needs
import WorkflowCompiler.Proofs.Compilation.Runs
import WorkflowCompiler.Proofs.Context.Leftovers

/-!
# Steps without placeholders

Where no text that is substituted holds a placeholder, substituting changes nothing, and nothing is
read from the context. What such steps compile to is what they say, carried over to the fields of a
configuration (`Step.verbatim`). So a workflow of such steps compiles to the same whatever is bound,
known or asked for, and however values are quoted (`Compiler.verbatim_of_compile`); of the settings
only the agent of the run matters.
-/

namespace WorkflowCompiler

open Attempt

/-! ## Carrying over -/

/-- What a setting says as a truth value, if it can be read so. -/
def Setting.flag? : Setting → Option Bool
  | .flag b => some b
  | .count n => some (n != 0)
  | .number x => some (!x.isZero)
  | .text s => readFlag? s

/-- What a setting says as a natural number, if it can be read so. -/
def Setting.count? : Setting → Option Nat
  | .flag _ => none
  | .count n => if n.toInt < 0 then none else some n.toInt.toNat
  | .number x =>
    if x.isWhole && (!x.negative || x.isZero) then some (min x.whole Compiling.greatestCount)
    else none
  | .text s => Integer.readUnsigned? (Text.trimChars s.toList)

namespace Declaration

/-- What the fields of a shell step say. -/
def verbatimShell (d : Declaration) : ShellConfig where
  command := d.commandText.getD ""
  workdir := d.workdir
  env := d.env
  onError := d.onError
  outputs := d.outputs

/-- What the fields of a step say that starts an agent. -/
def verbatimSpawn (d : Declaration) : SpawnConfig where
  agent := d.agentName.getD ""
  adapter := d.adapter
  workdir := d.workdir
  env := d.env
  resumeSession := d.resumeSession
  spawnArgs := d.spawnArgs
  prompt := d.promptText

/-- What the fields of a step say that stops an agent. -/
def verbatimKill (d : Declaration) : KillConfig where
  agent := d.agentName.getD ""
  graceful := d.graceful.getD true
  timeout := d.timeout.getD "10s"

/-- What the fields of a step say that puts in a workflow. -/
def verbatimExpand (d : Declaration) : ExpandConfig where
  template := d.template.getD ""
  vars := d.vars

/-- What the fields of a repetition say. -/
def verbatimForeach (d : Declaration) : ForeachConfig where
  template := d.template.getD ""
  vars := d.vars
  items := d.items
  itemsFile := d.itemsFile
  itemVar := d.itemName
  indexVar := d.indexVar
  parallel := (d.parallel.bind Setting.flag?).getD true
  maxConcurrent := d.maxConcurrent.bind Setting.count?

/-- What the fields of a step say that gives a prompt to an agent, if need be to that of the run. -/
def verbatimAgent (d : Declaration) (assignee : Option String) : AgentConfig where
  agent := d.agentName <|> assignee
  prompt := d.promptText.getD ""
  mode := d.mode.getD "autonomous"
  outputs := d.outputs

/-- What the fields of a branch say, its outcomes apart. A gate waits for its approval. -/
def verbatimBranch (d : Declaration) (id : String) (gate : Bool) : BranchConfig CompiledStep where
  condition := if gate then approvalCommand ++ " " ++ id else d.condition.getD ""
  prompt := d.promptText
  workdir := d.workdir
  env := d.env
  outputs := d.outputs
  timeout := d.timeout

/-- What the fields of a step say, outcomes apart. -/
def verbatim (d : Declaration) (assignee : Option String) (id : String) (c : Classification) :
    Config CompiledStep :=
  match c.executor with
  | .shell => .shell d.verbatimShell
  | .spawn => .spawn d.verbatimSpawn
  | .kill => .kill d.verbatimKill
  | .expand => .expand d.verbatimExpand
  | .branch => .branch (d.verbatimBranch id c.gate)
  | .foreach => .foreach d.verbatimForeach
  | .agent => .agent (d.verbatimAgent assignee)

end Declaration

/-- The configuration with the targets of a branch. -/
def Config.withTargets {σ : Type} (onTrue onFalse onTimeout : Option (CompiledTarget σ)) :
    Config σ → Config σ
  | .branch c => .branch { c with onTrue, onFalse, onTimeout }
  | config => config

mutual

/-- What a step says, carried over to a compiled step. A step that does not say how it is run does
not compile, and counts as one for an agent here. -/
def Step.verbatim (assignee : Option String) (id : String) : Step → CompiledStep
  | ⟨d, onTrue, onFalse, onTimeout⟩ =>
    { id
      title := d.title
      needs := d.needs
      config :=
        (d.verbatim assignee id (d.classify?.getD (.ofExecutor .agent))).withTargets
          (verbatimTarget assignee id onTrue) (verbatimTarget assignee id onFalse)
          (verbatimTarget assignee id onTimeout) }

/-- What the target of an outcome says, its inline steps put in order. -/
def verbatimTarget (assignee : Option String) (id : String) :
    Option (Target Step) → Option (CompiledTarget CompiledStep)
  | none => none
  | some ⟨template, vars, inline⟩ =>
    some
      { template, vars
        steps :=
          (inOrder (verbatimMembers assignee id (inline.map (·.id)) inline)).toOption.getD [] }

/-- What inline steps say, each with the needs of an inline step. -/
def verbatimMembers (assignee : Option String) (parent : String) (batch : List String) :
    List Step → List CompiledStep
  | [] => []
  | s :: rest =>
    { s.verbatim assignee (fullId (some parent) s.id) with
        needs := inlineNeeds parent batch s.needs } ::
      verbatimMembers assignee parent batch rest

end

/-- No text that is substituted holds a placeholder, in any step at any depth. -/
def Workflow.Plain (w : Workflow) : Prop :=
  ∀ b, w.ReachedBatch b → ∀ s ∈ b.steps, ∀ entry ∈ s.compiledTexts,
    hasPlaceholders entry.2 = false

/-! ## Texts -/

section Texts

theorem expandPieces_of_plain {write : Json → String} {ps : List Piece}
    (h : ps.filterMap Piece.path? = []) :
    expandPieces write ps = pure (ps.flatMap Piece.chars, false) := by
  induction ps with
  | nil => rfl
  | cons piece rest ih =>
    rw [List.filterMap_cons] at h
    rcases hpath : piece.path? with _ | path
    · rw [hpath] at h
      rw [expandPieces, expandPiece, hpath, ih h]
      rfl
    · rw [hpath] at h
      cases h

/-- A pass leaves a text without placeholders as it stands, whatever is bound. -/
theorem substitutePass_of_plain {write : Json → String} {text : String}
    (h : hasPlaceholders text = false) :
    substitutePass write text.toList = pure (text.toList, false) := by
  rw [substitutePass, expandPieces_of_plain (hasPlaceholders_eq_false_iff.1 h), pieces_chars]

theorem substitute_of_plain {text : String} (h : hasPlaceholders text = false) :
    substitute text = pure text := by
  rw [substitute_eq, maxRounds, substituteRounds, substitutePass_of_plain h]
  change (pure (String.ofList text.toList) : Resolving String) = pure text
  rw [String.ofList_toList]

theorem substituteShell_of_plain {text : String} (h : hasPlaceholders text = false) :
    substituteShell text = pure text := by
  rw [substituteShell_eq, substitutePass_of_plain h]
  change (pure (String.ofList text.toList) : Resolving String) = pure text
  rw [String.ofList_toList]

end Texts

/-! ## Fields -/

namespace Compiling

variable {step field : String}

theorem text_of_plain {value : String} (h : hasPlaceholders value = false) :
    text step field value = pure value := by
  rw [text, substitute_of_plain h]
  rfl

theorem command_of_plain {quoted : Bool} {value : String} (h : hasPlaceholders value = false) :
    command quoted step field value = pure value := by
  rw [command, substitute_of_plain h, substituteShell_of_plain h, ite_self]
  rfl

theorem optional_of_plain {value : Option String}
    (h : ∀ v ∈ value.toList, hasPlaceholders v = false) :
    Compiling.optional step field value = pure value := by
  cases value with
  | none => rfl
  | some v =>
    rw [Compiling.optional, Attempt.optional, text_of_plain (h v (by simp))]
    rfl

/-- A text with a fallback is left as it is, and so is the fallback. -/
theorem default_of_plain {value : Option String} {fallback : String}
    (h : ∀ v ∈ value.toList, hasPlaceholders v = false) :
    value.elim (pure fallback) (Compiling.text step field) = pure (value.getD fallback) := by
  cases value with
  | none => rfl
  | some v => exact text_of_plain (h v (by simp))

theorem numbered_of_plain {values : List String} (h : ∀ v ∈ values, hasPlaceholders v = false) :
    numbered step field values = pure values := by
  rw [numbered, each_eq_pure (g := Prod.fst)]
  · rw [List.zipIdx_map_fst]
  · exact fun entry hentry => text_of_plain (h entry.1 (List.fst_mem_of_mem_zipIdx hentry))

theorem texts_of_plain {values : Fields String}
    (h : ∀ v ∈ values.map Prod.snd, hasPlaceholders v = false) :
    texts step field values = pure values := by
  rw [texts, each_eq_pure (g := id), List.map_id]
  intro entry hentry
  rw [text_of_plain (h entry.2 (List.mem_map_of_mem hentry))]
  rfl

mutual

/-- A value in which no text holds a placeholder is left as it is, at any depth. -/
theorem value_of_plain {v : Json} (h : ∀ s ∈ v.strings, hasPlaceholders s = false) :
    value step field v = pure v := by
  cases v with
  | str s =>
    rw [value, text_of_plain (h s (by simp [Json.strings]))]
    rfl
  | arr items =>
    rw [Json.strings] at h
    rw [value, valueItems_of_plain h]
    rfl
  | obj fields =>
    rw [Json.strings] at h
    rw [value, valueFields_of_plain h]
    rfl
  | _ => rw [value]

theorem valueItems_of_plain {items : List Json}
    (h : ∀ s ∈ Json.stringsOfItems items, hasPlaceholders s = false) :
    valueItems step field items = pure items := by
  cases items with
  | nil => rw [valueItems]
  | cons item rest =>
    rw [Json.stringsOfItems, List.forall_mem_append] at h
    rw [valueItems, value_of_plain h.1, valueItems_of_plain h.2]
    rfl

theorem valueFields_of_plain {fields : List (String × Json)}
    (h : ∀ s ∈ Json.stringsOfFields fields, hasPlaceholders s = false) :
    valueFields step field fields = pure fields := by
  cases fields with
  | nil => rw [valueFields]
  | cons entry rest =>
    obtain ⟨name, item⟩ := entry
    rw [Json.stringsOfFields, List.forall_mem_append] at h
    rw [valueFields, value_of_plain h.1, valueFields_of_plain h.2]
    rfl

end

theorem values_of_plain {entries : Fields Json}
    (h : ∀ s ∈ valueStrings entries, hasPlaceholders s = false) :
    values step field entries = pure entries := by
  rw [values, each_eq_pure (g := id), List.map_id]
  intro entry hentry
  rw [value_of_plain fun s hs => h s (List.mem_flatMap.2 ⟨entry, hentry, hs⟩)]
  rfl

/-- A text that may not be missing is what it says. -/
theorem required_yields {value : Option String} {v : String}
    (h : ∀ v ∈ value.toList, hasPlaceholders v = false)
    (hy : (required step field value).Yields v) : v = value.getD "" := by
  rw [required] at hy
  rcases hfilter : value.filter fun v => !Text.allBlank v with _ | text
  · rw [hfilter] at hy
    exact absurd hy not_yields_fail
  · rw [hfilter] at hy
    obtain ⟨rfl, -⟩ := Option.filter_eq_some_iff.1 hfilter
    simp only [text_of_plain (h text (by simp))] at hy
    exact hy.eq_of_pure

theorem flag_yields {s : Setting} {b : Bool}
    (h : ∀ v ∈ s.string?.toList, hasPlaceholders v = false)
    (hy : (flag step field s).Yields b) : s.flag? = some b := by
  cases s with
  | text s =>
    rw [flag, text_of_plain (h s (by simp [Setting.string?])), pure_bind] at hy
    rw [Setting.flag?]
    rcases hread : readFlag? s with _ | b'
    · rw [hread] at hy
      exact absurd hy not_yields_fail
    · rw [hread] at hy
      rw [hy.eq_of_pure]
  | _ =>
    rw [Setting.flag?, hy.eq_of_pure]

theorem count_yields {s : Setting} {n : Nat}
    (h : ∀ v ∈ s.string?.toList, hasPlaceholders v = false)
    (hy : (count step field s).Yields n) : s.count? = some n := by
  cases s with
  | text s =>
    rw [count, text_of_plain (h s (by simp [Setting.string?])), pure_bind] at hy
    rw [Setting.count?]
    rcases hread : Integer.readUnsigned? (Text.trimChars s.toList) with _ | n'
    · rw [hread] at hy
      exact absurd hy not_yields_fail
    · rw [hread] at hy
      rw [hy.eq_of_pure]
  | flag b => exact absurd hy not_yields_fail
  | count i =>
    rw [count] at hy
    rw [Setting.count?]
    split at hy
    · exact absurd hy not_yields_fail
    · rw [if_neg ‹_›, hy.eq_of_pure]
  | number x =>
    rw [count] at hy
    rw [Setting.count?]
    split at hy
    · rw [if_pos ‹_›, hy.eq_of_pure]
    · exact absurd hy not_yields_fail

end Compiling

/-! ## Configurations -/

/-- No text holds a placeholder. -/
def Allowance.plain : Allowance :=
  ⟨fun _ text => hasPlaceholders text = false, fun _ => True, fun _ => True⟩

section Configurations

open Compiling

variable {settings : RunSettings} {id : String} {d : Declaration}

theorem shellConfig_yields {config : ShellConfig}
    (h : ∀ v ∈ d.commandText.getD "" :: (d.workdir.toList ++ d.env.map Prod.snd),
      hasPlaceholders v = false)
    (hy : (shellConfig settings id d).Yields config) : config = d.verbatimShell := by
  rw [List.forall_mem_cons, List.forall_mem_append] at h
  rw [shellConfig, command_of_plain h.1, optional_of_plain h.2.1, texts_of_plain h.2.2] at hy
  exact hy.eq_of_pure

theorem spawnConfig_yields {config : SpawnConfig}
    (hagent : ∀ v ∈ d.agentName.toList, hasPlaceholders v = false)
    (h : ∀ v ∈ d.spawnArgs ++ d.adapter.toList ++ d.workdir.toList ++ d.env.map Prod.snd ++
      d.promptText.toList, hasPlaceholders v = false)
    (hy : (spawnConfig id d).Yields config) : config = d.verbatimSpawn := by
  simp only [List.forall_mem_append] at h
  obtain ⟨⟨⟨⟨hargs, hadapter⟩, hworkdir⟩, henv⟩, hprompt⟩ := h
  simp only [spawnConfig, numbered_of_plain hargs, optional_of_plain hadapter,
    optional_of_plain hworkdir, texts_of_plain henv, optional_of_plain hprompt] at hy
  obtain ⟨agent, hname, hy⟩ := hy.of_bind
  rw [Declaration.verbatimSpawn, ← required_yields hagent hname]
  exact hy.eq_of_pure

theorem killConfig_yields {config : KillConfig}
    (hagent : ∀ v ∈ d.agentName.toList, hasPlaceholders v = false)
    (h : ∀ v ∈ d.timeout.toList, hasPlaceholders v = false)
    (hy : (killConfig id d).Yields config) : config = d.verbatimKill := by
  rw [killConfig_eq, default_of_plain h, pure_bind] at hy
  obtain ⟨agent, hname, hy⟩ := hy.of_bind
  rw [Declaration.verbatimKill, ← required_yields hagent hname]
  exact hy.eq_of_pure

theorem expandConfig_yields {config : ExpandConfig}
    (h : ∀ v ∈ d.template.toList ++ valueStrings d.vars, hasPlaceholders v = false)
    (hy : (expandConfig id d).Yields config) : config = d.verbatimExpand := by
  rw [List.forall_mem_append] at h
  simp only [expandConfig, values_of_plain h.2] at hy
  obtain ⟨template, htemplate, hy⟩ := hy.of_bind
  rw [Declaration.verbatimExpand, ← required_yields h.1 htemplate]
  exact hy.eq_of_pure

theorem foreachFields_yields {config : ForeachConfig}
    (h : ∀ v ∈ d.repetitionTexts, hasPlaceholders v = false)
    (hy : (foreachFields id d).Yields config) : config = d.verbatimForeach := by
  simp only [Declaration.repetitionTexts, List.forall_mem_append] at h
  obtain ⟨⟨⟨⟨⟨hparallel, hcount⟩, htemplate⟩, hvars⟩, hitems⟩, hfile⟩ := h
  simp only [foreachFields_eq, values_of_plain hvars, optional_of_plain hitems,
    optional_of_plain hfile] at hy
  obtain ⟨parallel, hflag, hy⟩ := hy.of_bind
  obtain ⟨maxConcurrent, hmax, hy⟩ := hy.of_bind
  obtain ⟨template, hname, hy⟩ := hy.of_bind
  have hflag' : (d.parallel.bind Setting.flag?).getD true = parallel := by
    cases hsetting : d.parallel with
    | none =>
      rw [hsetting] at hflag
      exact hflag.eq_of_pure.symm
    | some s =>
      rw [hsetting] at hflag hparallel
      rw [Option.bind_some, flag_yields hparallel hflag]
      rfl
  have hmax' : d.maxConcurrent.bind Setting.count? = maxConcurrent := by
    cases hsetting : d.maxConcurrent with
    | none =>
      rw [hsetting] at hmax
      exact hmax.eq_of_pure.symm
    | some s =>
      rw [hsetting] at hmax hcount
      obtain ⟨n, hn, hmax⟩ := hmax.of_bind
      rw [Option.bind_some, count_yields hcount hn, hmax.eq_of_pure]
  rw [Declaration.verbatimForeach, hflag', hmax', ← required_yields htemplate hname]
  exact hy.eq_of_pure

theorem foreachConfig_yields {config : ForeachConfig}
    (hy : (foreachConfig id d).Yields config) : (foreachFields id d).Yields config := by
  have hfields : (do
      Compiling.update fun c => d.repetitionRoots.foldl Context.bindLate c
      ensuring (foreachFields id d)
        (·.update fun c => d.repetitionRoots.foldl Context.unbindLate c)).Yields config →
      (foreachFields id d).Yields config := by
    intro hy
    obtain ⟨-, -, hy⟩ := hy.of_bind
    exact hy.of_ensuring
  rw [foreachConfig] at hy
  split at hy
  · exact absurd hy not_yields_fail
  · exact absurd hy not_yields_fail
  · exact hfields hy

theorem branchCondition_yields {gate : Bool} {condition : String}
    (h : ∀ v ∈ if gate then [] else d.condition.toList, hasPlaceholders v = false)
    (hy : (branchCondition settings id d gate).Yields condition) :
    condition = if gate then approvalCommand ++ " " ++ id else d.condition.getD "" := by
  rw [branchCondition] at hy
  cases gate with
  | true => exact hy.eq_of_pure
  | false =>
    simp only [Bool.false_eq_true, if_false] at h hy ⊢
    rcases hfilter : d.condition.filter fun c => !Text.allBlank c with _ | text
    · rw [hfilter] at hy
      exact absurd hy not_yields_fail
    · rw [hfilter] at hy
      have hcondition := (Option.filter_eq_some_iff.1 hfilter).1
      simp only [command_of_plain (h text (by simp [hcondition]))] at hy
      rw [hcondition]
      exact hy.eq_of_pure

theorem branchFields_yields {gate : Bool} {config : BranchConfig CompiledStep}
    (h : ∀ v ∈ (if gate then [] else d.condition.toList) ++ d.promptText.toList ++
      d.workdir.toList ++ d.env.map Prod.snd ++ d.timeout.toList, hasPlaceholders v = false)
    (hy : (branchFields settings id d gate).Yields config) : config = d.verbatimBranch id gate := by
  simp only [List.forall_mem_append] at h
  obtain ⟨⟨⟨⟨hcondition, hprompt⟩, hworkdir⟩, henv⟩, htimeout⟩ := h
  simp only [branchFields, optional_of_plain hprompt, optional_of_plain hworkdir,
    texts_of_plain henv, optional_of_plain htimeout] at hy
  obtain ⟨condition, htext, hy⟩ := hy.of_bind
  rw [Declaration.verbatimBranch, ← branchCondition_yields hcondition htext]
  exact hy.eq_of_pure

theorem agentConfig_yields {config : AgentConfig}
    (hagent : ∀ v ∈ d.agentName.toList, hasPlaceholders v = false)
    (h : ∀ v ∈ d.mode.toList ++ [d.promptText.getD ""], hasPlaceholders v = false)
    (hy : (agentConfig settings id d).Yields config) :
    config = d.verbatimAgent settings.defaultAssignee := by
  rw [List.forall_mem_append, List.forall_mem_singleton] at h
  have hname : agentOf settings id d = pure (d.agentName <|> settings.defaultAssignee) := by
    rw [agentOf]
    cases hraw : d.agentName with
    | none => rfl
    | some raw =>
      simp only [text_of_plain (hagent raw (by simp [hraw]))]
      rfl
  rw [agentConfig_eq, hname, default_of_plain h.1, text_of_plain h.2] at hy
  exact hy.eq_of_pure

end Configurations

/-! ## Steps and batches -/

theorem Step.verbatim_eq (assignee : Option String) (id : String) (s : Step) :
    s.verbatim assignee id =
      { id
        title := s.title
        needs := s.needs
        config :=
          (s.toDeclaration.verbatim assignee id (s.classify?.getD (.ofExecutor .agent))).withTargets
            (verbatimTarget assignee id s.onTrue) (verbatimTarget assignee id s.onFalse)
            (verbatimTarget assignee id s.onTimeout) } := by
  obtain ⟨d, onTrue, onFalse, onTimeout⟩ := s
  rw [Step.verbatim]

theorem verbatimTarget_some (assignee : Option String) (id : String) (t : Target Step) :
    verbatimTarget assignee id (some t) =
      some
        { template := t.template, vars := t.vars
          steps :=
            (inOrder (verbatimMembers assignee id (t.inline.map (·.id)) t.inline)).toOption.getD
              [] } := by
  obtain ⟨template, vars, inline⟩ := t
  rw [verbatimTarget]

theorem verbatimMembers_eq_map (assignee : Option String) (parent : String) (batch : List String)
    (steps : List Step) :
    verbatimMembers assignee parent batch steps = steps.map fun s =>
      { s.verbatim assignee (fullId (some parent) s.id) with
        needs := inlineNeeds parent batch s.needs } := by
  induction steps with
  | nil => rw [verbatimMembers, List.map_nil]
  | cons s rest ih => rw [verbatimMembers, ih, List.map_cons]

section Steps

variable {settings : RunSettings} {id : String} {s : Step}

/-- A configuration says what its step says if the outcomes of a branch do. -/
theorem compileConfig_yields {cl : Classification} {config : Config CompiledStep}
    (hclass : s.classify? = some cl) (h : s.Within .plain)
    (houtcomes : cl.executor = .branch → ∀ o ct,
      (compileOutcome settings id o.name (s.target? o)).Yields ct →
        ct = verbatimTarget settings.defaultAssignee id (s.target? o))
    (hy : (compileConfig settings id s cl).Yields config) :
    config = (s.toDeclaration.verbatim settings.defaultAssignee id cl).withTargets
      (verbatimTarget settings.defaultAssignee id s.onTrue)
      (verbatimTarget settings.defaultAssignee id s.onFalse)
      (verbatimTarget settings.defaultAssignee id s.onTimeout) := by
  have hagent := h.agent
  obtain ⟨hplain, hrepetition, -⟩ := h.classified hclass
  rw [List.forall_mem_append] at hplain
  obtain ⟨-, hfields⟩ := hplain
  rw [Declaration.fieldTexts] at hfields
  rw [compileConfig] at hy
  rw [Declaration.verbatim]
  cases hexecutor : cl.executor with
  | shell =>
    rw [hexecutor] at hy hfields
    exact hy.eq_of_map fun _ => shellConfig_yields hfields
  | spawn =>
    rw [hexecutor] at hy hfields
    exact hy.eq_of_map fun _ => spawnConfig_yields hagent hfields
  | kill =>
    rw [hexecutor] at hy hfields
    exact hy.eq_of_map fun _ => killConfig_yields hagent hfields
  | expand =>
    rw [hexecutor] at hy hfields
    exact hy.eq_of_map fun _ => expandConfig_yields hfields
  | foreach =>
    rw [hexecutor] at hy
    exact hy.eq_of_map fun _ hconfig =>
      foreachFields_yields (hrepetition hexecutor) (foreachConfig_yields hconfig)
  | agent =>
    rw [hexecutor] at hy hfields
    exact hy.eq_of_map fun _ => agentConfig_yields hagent hfields
  | branch =>
    rw [hexecutor] at hy hfields
    have ho := houtcomes hexecutor
    obtain ⟨fields, hconfig, hy⟩ := hy.of_bind
    obtain ⟨onTrue, htrue, hy⟩ := hy.of_bind
    obtain ⟨onFalse, hfalse, hy⟩ := hy.of_bind
    obtain ⟨onTimeout, htimeout, hy⟩ := hy.of_bind
    rw [hy.eq_of_pure, branchFields_yields hfields hconfig, ho .onTrue onTrue htrue,
      ho .onFalse onFalse hfalse, ho .onTimeout onTimeout htimeout]
    rfl

theorem compileOutcome_yields {name : String} {target : Option (Target Step)}
    {ct : Option (CompiledTarget CompiledStep)}
    (htexts : ∀ t, target = some t → ∀ v ∈ t.compiledTexts, hasPlaceholders v = false)
    (hinline : ∀ t, target = some t → t.inline ≠ [] → ∀ out,
      (compileInline settings t.inline id).Yields out →
        inOrder (verbatimMembers settings.defaultAssignee id (t.inline.map (·.id)) t.inline) =
          .ok out)
    (hy : (compileOutcome settings id name target).Yields ct) :
    ct = verbatimTarget settings.defaultAssignee id target := by
  cases target with
  | none =>
    rw [compileOutcome] at hy
    rw [verbatimTarget, hy.eq_of_pure]
  | some t =>
    have htarget := htexts t rfl
    rw [Target.compiledTexts, List.forall_mem_append] at htarget
    simp only [compileOutcome_some, Compiling.optional_of_plain htarget.1,
      Compiling.values_of_plain htarget.2] at hy
    obtain ⟨steps, hsteps, hy⟩ := hy.of_bind
    have hsteps' : (inOrder (verbatimMembers settings.defaultAssignee id
        (t.inline.map (·.id)) t.inline)).toOption.getD [] = steps := by
      by_cases hnil : t.inline = []
      · rw [if_pos hnil] at hsteps
        rw [hsteps.eq_of_pure, hnil]
        rfl
      · rw [if_neg hnil] at hsteps
        rw [hinline t rfl hnil steps hsteps]
        rfl
    rw [verbatimTarget_some, hsteps']
    exact hy.eq_of_pure

theorem compileInline_yields {steps : List Step} {parent : String} {out : List CompiledStep}
    (h : ∀ i ∈ steps, ∀ c, (compileStep settings (fullId (some parent) i.id) i).Yields c →
      c = i.verbatim settings.defaultAssignee (fullId (some parent) i.id))
    (hy : (compileInline settings steps parent).Yields out) :
    inOrder (verbatimMembers settings.defaultAssignee parent (steps.map (·.id)) steps) =
      .ok out := by
  obtain ⟨-, -, hy⟩ := hy.of_bind
  obtain ⟨compiled, hcompiled, hy⟩ := hy.of_bind
  rw [compileMembers_eq_each] at hcompiled
  rw [verbatimMembers_eq_map, ← hcompiled.eq_map, hy.eq_of_ofExcept]
  intro i hi c hc
  obtain ⟨c', hc', hc⟩ := hc.of_bind
  rw [hc.eq_of_pure, h i hi c' hc']

theorem compileStep_yields_of_inline {c : CompiledStep} (h : s.Within .plain)
    (hinline : s.IsBranch → ∀ o t, s.target? o = some t → t.inline ≠ [] → ∀ out,
      (compileInline settings t.inline id).Yields out →
        inOrder (verbatimMembers settings.defaultAssignee id (t.inline.map (·.id)) t.inline) =
          .ok out)
    (hy : (compileStep settings id s).Yields c) : c = s.verbatim settings.defaultAssignee id := by
  rw [compileStep_eq] at hy
  obtain ⟨-, -, hy⟩ := hy.of_bind
  obtain ⟨-, -, hy⟩ := hy.of_bind
  rcases hclass : s.classify? with _ | cl
  · rw [hclass] at hy
    exact absurd hy not_yields_fail
  · obtain ⟨hplain, -, htargets⟩ := h.classified hclass
    rw [List.forall_mem_append] at hplain
    rw [hclass] at hy
    obtain ⟨title, htitle, hy⟩ := hy.of_bind
    obtain ⟨config, hconfig, hy⟩ := hy.of_bind
    rw [Compiling.optional_of_plain hplain.1] at htitle
    rw [hy.eq_of_pure, htitle.eq_of_pure, Step.verbatim_eq, hclass, Option.getD_some,
      compileConfig_yields hclass h ?_ hconfig]
    exact fun hbranch o ct hct => compileOutcome_yields (htargets hbranch o)
      (hinline ⟨cl, hclass, hbranch⟩ o) hct

/-- A step of a batch without placeholders compiles to what it says, with the inline steps inside
it. -/
theorem compileStep_yields {b : Batch} (h : b.Within .plain) (hs : s ∈ b.steps) {c : CompiledStep}
    (hy : (compileStep settings id s).Yields c) : c = s.verbatim settings.defaultAssignee id := by
  -- the batches inside are smaller
  induction hsize : sizeOf b.steps using Nat.strongRecOn generalizing b s id c with
  | ind size ih =>
    refine compileStep_yields_of_inline (h b .refl s hs).1 ?_ hy
    intro hbranch o t ht hinline out hout
    have hunder : b.UnderBranch (b.inside s t) := ⟨s, hs, hbranch, o, t, ht, hinline, rfl⟩
    have hwithin : (b.inside s t).Within .plain := fun deeper hway => h deeper (hway.head hunder)
    have hlt := hunder.inside.sizeOf_lt
    rw [hsize] at hlt
    exact compileInline_yields (fun i hi _ hc => ih _ hlt hwithin hi hc rfl) hout

end Steps

/-! ## Workflows -/

theorem Workflow.Plain.within {w : Workflow} (h : w.Plain) : w.topBatch.Within .plain :=
  fun b hreached s hs => ⟨⟨h b hreached s hs, fun _ _ _ => trivial⟩, trivial⟩

/-- What a workflow without placeholders says, its steps put in order. -/
def Workflow.verbatim (w : Workflow) (assignee : Option String) :
    Except CompileError (List CompiledStep) :=
  inOrder (w.steps.map fun s => s.verbatim assignee s.id)

/-- If a workflow without placeholders compiles, it compiles to what it says; so any two
compilations of it, for any runs with the same agent, have the same result. -/
theorem Compiler.verbatim_of_compile {w : Workflow} (hplain : w.Plain) :
    (∀ (c : Compiler) (d : Disk) (inputs : Fields String) (out : List CompiledStep),
      (c.compile d w inputs).1 = .ok out → w.verbatim c.settings.defaultAssignee = .ok out) ∧
    ∀ (c c' : Compiler) (d d' : Disk) (inputs inputs' : Fields String)
      (out out' : List CompiledStep),
      c'.settings.defaultAssignee = c.settings.defaultAssignee →
      (c.compile d w inputs).1 = .ok out → (c'.compile d' w inputs').1 = .ok out' → out' = out := by
  have hverbatim : ∀ (c : Compiler) (d : Disk) (inputs : Fields String) (out : List CompiledStep),
      (c.compile d w inputs).1 = .ok out → w.verbatim c.settings.defaultAssignee = .ok out := by
    intro c d inputs out hout
    obtain ⟨-, vars, -, compiled, hsteps, horder⟩ := Compiler.compile_eq_ok_iff.1 hout
    have hyields : (compileSteps c.settings w.steps).Yields compiled := yields_of_fst_eq_ok hsteps
    rw [Workflow.verbatim, ← hyields.eq_map, horder]
    exact fun s hs _ hc => compileStep_yields hplain.within hs hc
  refine ⟨hverbatim, fun c c' d d' inputs inputs' out out' hassignee hout hout' => ?_⟩
  have hsame := hverbatim c' d' inputs' out' hout'
  rw [hassignee, hverbatim c d inputs out hout] at hsame
  exact (Except.ok.inj hsame).symm

/-- A compiler for another run, with a variable, and with quoting. -/
def otherCompiler : Compiler where
  settings := { workflowId := "again", shellQuoting := true }
  session := { context := { vars := [("goal", .str "all")], clock := 1 } }

/-- A branch with inline steps compiles to what it says, for one run as for the other. -/
theorem reportWorkflow_verbatim :
    (reportWorkflow "prep").Plain ∧ ∃ out,
      ((Compiler.mk { workflowId := "run" } {}).compile {} (reportWorkflow "prep") []).1 = .ok out ∧
      (otherCompiler.compile {} (reportWorkflow "prep") [("mode", "fast")]).1 = .ok out ∧
      (reportWorkflow "prep").verbatim none = .ok out := by
  have hplain : (reportWorkflow "prep").Plain := by
    intro b hreached
    rcases eq_of_reachedBatch hreached with rfl | rfl
    · decide +kernel
    · decide +kernel
  obtain ⟨out, hout⟩ := exists_compile_reportWorkflow "prep" (by decide +kernel)
  have hcompiles : (otherCompiler.compile {} (reportWorkflow "prep")
      [("mode", "fast")]).1.toOption.isSome = true := by
    decide +kernel
  obtain ⟨out', hok⟩ := exists_eq_ok_of_isSome hcompiles
  obtain ⟨hverbatim, hsame⟩ := Compiler.verbatim_of_compile hplain
  cases hsame (.mk { workflowId := "run" } {}) otherCompiler {} {} [] [("mode", "fast")] out out'
    rfl hout hok
  exact ⟨hplain, out, hout, hok, hverbatim _ _ _ out hout⟩

end WorkflowCompiler
