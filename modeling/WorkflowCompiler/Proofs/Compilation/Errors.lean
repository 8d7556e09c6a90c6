import WorkflowCompiler.Proofs.Compilation.Steps

/-!
# Errors of a compilation

Where a compilation can fail, and with what. The texts of fields fail with errors of their own
(`CompileError.OfField`), and so does the binding of variables (`CompileError.OfVariable`).
Errors that are neither (`CompileError.Elsewhere` than in fields) come from a step that breaks
the rules of its executor, or from a batch that is put together. So steps that keep the rules
avoid all of these that no batch among them raises (`Compilable.avoids_compileStep`,
`avoids_compile_batch`, `avoids_compileWorkflow_of_batch`).
-/

namespace WorkflowCompiler

open Attempt

namespace CompileError

/-- The error is about the text of a field. -/
def OfField : CompileError → Prop
  | field _ _ _ | invalidValue _ _ _ => True
  | _ => False

/-- The error is not about the text of a field. -/
def Elsewhere (e : CompileError) : Prop := ¬ e.OfField

/-- The error is about a variable of the workflow. -/
def OfVariable : CompileError → Prop
  | variableFile _ _ _ | missingVariables _ | invalidVariable _ _ => True
  | _ => False

end CompileError

open CompileError (Elsewhere)

/-! ## Fields -/

namespace Compiling

variable {id field : String}

theorem avoids_text (id field value : String) : (text id field value).Avoids Elsewhere :=
  avoids_mapError fun _ h => h trivial

theorem avoids_command (quoted : Bool) (id field value : String) :
    (command quoted id field value).Avoids Elsewhere :=
  avoids_mapError fun _ h => h trivial

theorem avoids_optional (id field : String) (value : Option String) :
    (Compiling.optional id field value).Avoids Elsewhere :=
  Attempt.avoids_optional (fun value => avoids_text id field value) value

/-- The filter that takes out blank texts leaves those that are given. -/
theorem filter_not_blank_of_given {value : Option String} (h : Given value) :
    ∃ v, (value.filter fun v => !Text.allBlank v) = some v := by
  obtain ⟨v, rfl, hv⟩ := h
  exact ⟨v, by simp [trim_ne_iff.1 hv]⟩

/-- A field that is asked for is not missed if it is given. -/
theorem avoids_required {value : Option String} (h : Given value) :
    (required id field value).Avoids Elsewhere := by
  obtain ⟨v, hv⟩ := filter_not_blank_of_given h
  rw [required, hv]
  exact avoids_text id field v

theorem avoids_numbered (id field : String) (values : List String) :
    (numbered id field values).Avoids Elsewhere :=
  avoids_each fun entry _ => avoids_text id _ entry.1

theorem avoids_texts (id field : String) (values : Fields String) :
    (texts id field values).Avoids Elsewhere :=
  avoids_each fun entry _ => (avoids_text id _ entry.2).bind fun _ _ => avoids_pure _

mutual

theorem avoids_value (id field : String) (v : Json) : (value id field v).Avoids Elsewhere := by
  cases v with
  | str s =>
    rw [value]
    exact (avoids_text id field s).bind fun _ _ => avoids_pure _
  | arr items =>
    rw [value]
    exact (avoids_valueItems id field items).bind fun _ _ => avoids_pure _
  | obj fields =>
    rw [value]
    exact (avoids_valueFields id field fields).bind fun _ _ => avoids_pure _
  | _ =>
    rw [value]
    exact avoids_pure _

theorem avoids_valueItems (id field : String) (items : List Json) :
    (valueItems id field items).Avoids Elsewhere := by
  cases items with
  | nil =>
    rw [valueItems]
    exact avoids_pure _
  | cons item rest =>
    rw [valueItems]
    exact (avoids_value id field item).bind fun _ _ =>
      (avoids_valueItems id field rest).bind fun _ _ => avoids_pure _

theorem avoids_valueFields (id field : String) (fields : List (String × Json)) :
    (valueFields id field fields).Avoids Elsewhere := by
  cases fields with
  | nil =>
    rw [valueFields]
    exact avoids_pure _
  | cons entry rest =>
    obtain ⟨name, item⟩ := entry
    rw [valueFields]
    exact (avoids_value id field item).bind fun _ _ =>
      (avoids_valueFields id field rest).bind fun _ _ => avoids_pure _

end

theorem avoids_values (id field : String) (entries : Fields Json) :
    (values id field entries).Avoids Elsewhere :=
  avoids_each fun entry _ => (avoids_value id _ entry.2).bind fun _ _ => avoids_pure _

theorem avoids_flag (id field : String) (s : Setting) :
    (flag id field s).Avoids Elsewhere := by
  cases s with
  | text s =>
    refine (avoids_text id field s).bind fun s _ => ?_
    cases readFlag? s with
    | none => exact avoids_fail fun h => h trivial
    | some b => exact avoids_pure _
  | _ => exact avoids_pure _

theorem avoids_count (id field : String) (s : Setting) :
    (count id field s).Avoids Elsewhere := by
  cases s with
  | text s =>
    refine (avoids_text id field s).bind fun s _ => ?_
    cases Integer.readUnsigned? (Text.trimChars s.toList) with
    | none => exact avoids_fail fun h => h trivial
    | some n => exact avoids_pure _
  | flag b => exact avoids_fail fun h => h trivial
  | count n =>
    by_cases hn : n.toInt < 0
    · rw [count, if_pos hn]
      exact avoids_fail fun h => h trivial
    · rw [count, if_neg hn]
      exact avoids_pure _
  | number x =>
    by_cases hx : (x.isWhole && (!x.negative || x.isZero)) = true
    · rw [count, if_pos hx]
      exact avoids_pure _
    · rw [count, if_neg hx]
      exact avoids_fail fun h => h trivial

end Compiling

/-! ## Configurations -/

section Configurations

variable {settings : RunSettings} {id : String} {d : Declaration}

theorem avoids_bindAgent (settings : RunSettings) (id : String) (d : Declaration) :
    (bindAgent settings id d).Avoids Elsewhere := by
  rw [bindAgent]
  refine (avoids_change _).bind fun _ _ => ?_
  cases d.agentName with
  | none =>
    refine (avoids_pure _).bind fun agent _ => ?_
    cases agent with
    | none => exact avoids_pure _
    | some agent => exact avoids_change _
  | some raw =>
    refine ((Compiling.avoids_text id _ raw).bind fun _ _ => avoids_pure _).bind fun agent _ => ?_
    cases agent with
    | none => exact avoids_pure _
    | some agent => exact avoids_change _

theorem avoids_shellConfig : (shellConfig settings id d).Avoids Elsewhere :=
  (Compiling.avoids_command _ id _ _).bind fun _ _ =>
    (Compiling.avoids_optional id _ _).bind fun _ _ =>
      (Compiling.avoids_texts id _ _).bind fun _ _ => avoids_pure _

theorem avoids_spawnConfig (h : Given d.agentName) : (spawnConfig id d).Avoids Elsewhere :=
  (Compiling.avoids_required h).bind fun _ _ =>
    (Compiling.avoids_numbered id _ _).bind fun _ _ =>
      (Compiling.avoids_optional id _ _).bind fun _ _ =>
        (Compiling.avoids_optional id _ _).bind fun _ _ =>
          (Compiling.avoids_texts id _ _).bind fun _ _ =>
            (Compiling.avoids_optional id _ _).bind fun _ _ => avoids_pure _

theorem avoids_killConfig (h : Given d.agentName) : (killConfig id d).Avoids Elsewhere := by
  rw [killConfig]
  cases d.timeout with
  | none => exact (avoids_pure _).bind fun _ _ =>
      (Compiling.avoids_required h).bind fun _ _ => avoids_pure _
  | some timeout => exact (Compiling.avoids_text id _ timeout).bind fun _ _ =>
      (Compiling.avoids_required h).bind fun _ _ => avoids_pure _

theorem avoids_expandConfig (h : Given d.template) : (expandConfig id d).Avoids Elsewhere :=
  (Compiling.avoids_required h).bind fun _ _ =>
    (Compiling.avoids_values id _ _).bind fun _ _ => avoids_pure _

theorem avoids_foreachFields (h : Given d.template) :
    (foreachFields id d).Avoids Elsewhere := by
  have hfields : ∀ parallel : Bool, (do
      let maxConcurrent ← Attempt.optional (Compiling.count id "max_concurrent") d.maxConcurrent
      let template ← Compiling.required id "template" d.template
      let vars ← Compiling.values id "variables" d.vars
      let items ← Compiling.optional id "items" d.items
      let itemsFile ← Compiling.optional id "items_file" d.itemsFile
      pure
        { template, vars, items, itemsFile, itemVar := d.itemName, indexVar := d.indexVar,
          parallel, maxConcurrent } : Compiling ForeachConfig).Avoids Elsewhere := fun parallel =>
    (Attempt.avoids_optional (Compiling.avoids_count id _) _).bind fun _ _ =>
      (Compiling.avoids_required h).bind fun _ _ =>
        (Compiling.avoids_values id _ _).bind fun _ _ =>
          (Compiling.avoids_optional id _ _).bind fun _ _ =>
            (Compiling.avoids_optional id _ _).bind fun _ _ => avoids_pure _
  rw [foreachFields]
  cases d.parallel with
  | none => exact (avoids_pure _).bind fun parallel _ => hfields parallel
  | some setting =>
    exact (Compiling.avoids_flag id _ setting).bind fun parallel _ => hfields parallel

/-- A repetition is compiled if its items are given in one way. -/
theorem avoids_foreachConfig (h : Given d.template) (hitems : d.items.isSome ≠ d.itemsFile.isSome) :
    (foreachConfig id d).Avoids Elsewhere := by
  have hfields : (do
      Compiling.update fun c => d.repetitionRoots.foldl Context.bindLate c
      ensuring (foreachFields id d)
        (·.update fun c => d.repetitionRoots.foldl Context.unbindLate c)).Avoids Elsewhere :=
    (avoids_change _).bind fun _ _ => (avoids_foreachFields h).ensuring _
  rw [foreachConfig]
  -- the items are not given, or in one of the two ways, or in both
  rcases hi : d.items with _ | items <;> rcases hf : d.itemsFile with _ | file
  · simp [hi, hf] at hitems
  · exact hfields
  · exact hfields
  · simp [hi, hf] at hitems

/-- A branch is compiled, but for its outcomes, if it has a condition or waits for an
approval. -/
theorem avoids_branchFields {gate : Bool} (h : gate = true ∨ Given d.condition) :
    (branchFields settings id d gate).Avoids Elsewhere := by
  have hcondition : (branchCondition settings id d gate).Avoids Elsewhere := by
    rw [branchCondition]
    by_cases hgate : gate = true
    · rw [if_pos hgate]
      exact avoids_pure _
    · rw [if_neg hgate]
      obtain ⟨condition, hcondition⟩ :=
        Compiling.filter_not_blank_of_given (h.resolve_left hgate)
      rw [hcondition]
      exact Compiling.avoids_command _ id _ condition
  exact hcondition.bind fun _ _ =>
    (Compiling.avoids_optional id _ _).bind fun _ _ =>
      (Compiling.avoids_optional id _ _).bind fun _ _ =>
        (Compiling.avoids_texts id _ _).bind fun _ _ =>
          (Compiling.avoids_optional id _ _).bind fun _ _ => avoids_pure _

theorem avoids_agentConfig : (agentConfig settings id d).Avoids Elsewhere := by
  have hprompt : ∀ (agent : Option String) (mode : String), (do
      let prompt ← Compiling.text id d.promptField (d.promptText.getD "")
      pure { agent, prompt, mode, outputs := d.outputs } :
        Compiling AgentConfig).Avoids Elsewhere := fun agent mode =>
    (Compiling.avoids_text id _ _).bind fun _ _ => avoids_pure _
  rw [agentConfig]
  cases d.agentName with
  | none =>
    refine (avoids_pure _).bind fun agent _ => ?_
    cases d.mode with
    | none => exact (avoids_pure _).bind fun mode _ => hprompt agent mode
    | some text => exact (Compiling.avoids_text id _ text).bind fun mode _ => hprompt agent mode
  | some raw =>
    refine ((Compiling.avoids_text id _ raw).bind fun _ _ => avoids_pure _).bind fun agent _ => ?_
    cases d.mode with
    | none => exact (avoids_pure _).bind fun mode _ => hprompt agent mode
    | some text => exact (Compiling.avoids_text id _ text).bind fun mode _ => hprompt agent mode

end Configurations

/-! ## Steps -/

section Steps

variable {settings : RunSettings} {id : String} {s : Step} {bad : CompileError → Prop}

/-- What keeps a step that keeps the rules from being compiled is a field of it or an outcome. -/
theorem avoids_compileConfig {c : Classification} (hfields : ∀ e, bad e → e.Elsewhere)
    (hrules : s.MeetsRules c)
    (houtcomes : ∀ o, (compileOutcome settings id o.name (s.target? o)).Avoids bad) :
    (compileConfig settings id s c).Avoids bad := by
  rw [Step.MeetsRules] at hrules
  rw [compileConfig]
  cases hexecutor : c.executor with
  | shell => exact (avoids_shellConfig.mono hfields).bind fun _ _ => avoids_pure _
  | spawn =>
    rw [hexecutor] at hrules
    exact ((avoids_spawnConfig hrules).mono hfields).bind fun _ _ => avoids_pure _
  | kill =>
    rw [hexecutor] at hrules
    exact ((avoids_killConfig hrules).mono hfields).bind fun _ _ => avoids_pure _
  | expand =>
    rw [hexecutor] at hrules
    exact ((avoids_expandConfig hrules).mono hfields).bind fun _ _ => avoids_pure _
  | foreach =>
    rw [hexecutor] at hrules
    exact ((avoids_foreachConfig hrules.1 hrules.2).mono hfields).bind fun _ _ => avoids_pure _
  | agent => exact (avoids_agentConfig.mono hfields).bind fun _ _ => avoids_pure _
  | branch =>
    simp only [hexecutor] at hrules
    have hcondition : c.gate = true ∨ Given s.condition := by
      by_cases hgate : c.gate = true
      · exact .inl hgate
      · rw [if_neg hgate] at hrules
        exact .inr hrules.1
    exact ((avoids_branchFields hcondition).mono hfields).bind fun _ _ =>
      (houtcomes .onTrue).bind fun _ _ => (houtcomes .onFalse).bind fun _ _ =>
        (houtcomes .onTimeout).bind fun _ _ => avoids_pure _

theorem avoids_compileStep_of_outcomes (hfields : ∀ e, bad e → e.Elsewhere)
    (hrules : ∃ c, s.classify? = some c ∧ s.MeetsRules c)
    (houtcomes : ∀ o, (compileOutcome settings id o.name (s.target? o)).Avoids bad) :
    (compileStep settings id s).Avoids bad := by
  obtain ⟨c, hclass, hmeets⟩ := hrules
  rw [compileStep_eq]
  refine (avoids_change _).bind fun _ _ =>
    ((avoids_bindAgent settings id _).mono hfields).bind fun _ _ => ?_
  rw [hclass]
  exact ((Compiling.avoids_optional id _ _).mono hfields).bind fun _ _ =>
    (avoids_compileConfig hfields hmeets houtcomes).bind fun _ _ => avoids_pure _

theorem avoids_compileOutcome {name : String} {target : Option (Target Step)}
    (hfields : ∀ e, bad e → e.Elsewhere)
    (h : ∀ t, target = some t → t.inline ≠ [] → (compileInline settings t.inline id).Avoids bad) :
    (compileOutcome settings id name target).Avoids bad := by
  cases target with
  | none =>
    rw [compileOutcome]
    exact avoids_pure _
  | some t =>
    have hsteps : (if t.inline = [] then pure [] else compileInline settings t.inline id :
        Compiling (List CompiledStep)).Avoids bad := by
      by_cases hinline : t.inline = []
      · rw [if_pos hinline]
        exact avoids_pure _
      · rw [if_neg hinline]
        exact h t rfl hinline
    rw [compileOutcome_some]
    exact hsteps.bind fun _ _ => ((Compiling.avoids_optional id _ _).mono hfields).bind fun _ _ =>
      ((Compiling.avoids_values id _ _).mono hfields).bind fun _ _ => avoids_pure _

end Steps

/-! ## Batches -/

/-- A batch is put together without these errors: neither the check of its steps before they
are compiled nor the order of them afterwards fails with one. -/
structure Batch.Assembles (settings : RunSettings) (bad : CompileError → Prop) (b : Batch) :
    Prop where
  /-- the check of inline steps does not fail so -/
  check : ∀ parent, b.parent = some parent →
    ∀ e, checkInline parent b.steps = .error e → ¬ bad e
  /-- putting the compiled steps in order does not -/
  order : ∀ compiled, (b.compileMembers settings).Yields compiled →
    ∀ e, inOrder compiled = .error e → ¬ bad e

/-- Steps, each with an id to compile it under, that keep the rules, and whose inline steps are
such steps again and are put together without bad errors. -/
structure Compilable (settings : RunSettings) (bad : CompileError → Prop)
    (good : String → Step → Prop) : Prop where
  /-- the errors are not about the text of a field -/
  elsewhere : ∀ e, bad e → e.Elsewhere
  /-- the steps keep the rules of their executors -/
  meetsRules : ∀ id s, good id s → ∃ c, s.classify? = some c ∧ s.MeetsRules c
  /-- the inline steps are such steps -/
  inline : ∀ id s, good id s → ∀ o t, s.target? o = some t →
    ∀ i ∈ t.inline, good (fullId (some id) i.id) i
  /-- they are put together -/
  assembles : ∀ id s, good id s → ∀ o t, s.target? o = some t → t.inline ≠ [] →
    Batch.Assembles settings bad { parent := some id, steps := t.inline }

section Batches

variable {settings : RunSettings} {bad : CompileError → Prop} {good : String → Step → Prop}

/-- A batch is compiled if its steps are and it is put together. -/
theorem avoids_compile_batch {b : Batch}
    (hmembers : ∀ s ∈ b.steps, (compileStep settings (b.fullId s) s).Avoids bad)
    (h : b.Assembles settings bad) : (b.compile settings).Avoids bad := by
  obtain ⟨parent, outer, steps⟩ := b
  cases parent with
  | none =>
    have hall : (compileSteps settings steps).Avoids bad := avoids_each hmembers
    exact hall.bind fun compiled hyields => avoids_ofExcept (h.order compiled hyields)
  | some parent =>
    have hall : (compileMembers settings parent (steps.map (·.id)) steps).Avoids bad := by
      rw [compileMembers_eq_each]
      exact avoids_each fun s hs => (hmembers s hs).bind fun _ _ => avoids_pure _
    exact (avoids_ofExcept (h.check parent rfl)).bind fun _ _ =>
      hall.bind fun compiled hyields => avoids_ofExcept (h.order compiled hyields)

/-- Such steps are compiled without these errors. -/
theorem Compilable.avoids_compileStep (hcompilable : Compilable settings bad good) {id : String} {s : Step}
    (hs : good id s) : (compileStep settings id s).Avoids bad := by
  -- the inline steps are smaller
  induction hsize : sizeOf s using Nat.strongRecOn generalizing id s with
  | ind size ih =>
    refine avoids_compileStep_of_outcomes hcompilable.elsewhere (hcompilable.meetsRules id s hs) fun o => ?_
    refine avoids_compileOutcome hcompilable.elsewhere fun t ht hinline => ?_
    refine avoids_compile_batch (b := { parent := some id, steps := t.inline }) (fun i hi => ?_)
      (hcompilable.assembles id s hs o t ht hinline)
    have hlt := Nat.lt_trans (List.sizeOf_lt_of_mem hi) (Step.sizeOf_inline_lt ht)
    rw [hsize] at hlt
    exact ih _ hlt (hcompilable.inline id s hs o t ht i hi) rfl

/-- A batch of steps with distinct ids is put together, but for circles. -/
theorem Batch.assembles_of_nodup {b : Batch} (hcycle : ∀ path, ¬ bad (.cycle path))
    (hnodup : b.ids.Nodup) : b.Assembles settings bad where
  check := by
    intro parent _ e he
    obtain ⟨path, rfl⟩ := checkInline_eq_error hnodup he
    exact hcycle path
  order := by
    intro compiled _ e he
    obtain ⟨path, rfl⟩ := inOrder_eq_error he
    exact hcycle path

/-- Steps that keep the rules, as do the batches inside them, are compiled but for their fields
and for circles. -/
theorem compilable_of_wellFormed {w : Workflow} (helsewhere : ∀ e, bad e → e.Elsewhere)
    (hcycle : ∀ path, ¬ bad (.cycle path)) :
    Compilable settings bad fun _ s =>
      ∃ b : Batch, (∀ inner, Relation.ReflTransGen Batch.Inside b inner → inner.WellFormed w) ∧
        s ∈ b.steps where
  elsewhere := helsewhere
  meetsRules := by
    rintro id s ⟨b, hrules, hs⟩
    exact ((hrules b .refl).steps s hs).meetsRules
  inline := by
    rintro id s ⟨b, hrules, hs⟩ o t ht i hi
    have hinside : b.Inside (b.inside s t) := ⟨s, hs, o, t, ht, List.ne_nil_of_mem hi, rfl⟩
    exact ⟨b.inside s t, fun deeper hway => hrules deeper (hway.head hinside), hi⟩
  assembles := by
    rintro id s ⟨b, hrules, hs⟩ o t ht hinline
    have hinside : b.Inside (b.inside s t) := ⟨s, hs, o, t, ht, hinline, rfl⟩
    exact Batch.assembles_of_nodup hcycle (hrules _ (.single hinside)).ids_distinct

/-- So is a batch that keeps the rules, with the batches inside it. -/
theorem avoids_compile_of_wellFormed {w : Workflow} {b : Batch}
    (helsewhere : ∀ e, bad e → e.Elsewhere) (hcycle : ∀ path, ¬ bad (.cycle path))
    (hrules : ∀ inner, Relation.ReflTransGen Batch.Inside b inner → inner.WellFormed w) :
    (b.compile settings).Avoids bad :=
  avoids_compile_batch
    (fun _ hs => (compilable_of_wellFormed helsewhere hcycle).avoids_compileStep ⟨b, hrules, hs⟩)
    (Batch.assembles_of_nodup hcycle (hrules b .refl).ids_distinct)

end Batches

/-! ## Variables -/

/-- Of what is outside of the steps, only required variables may be missing. -/
theorem requireVariables_eq_error {c : Context} {declared : Fields Variable} {e : CompileError}
    (h : requireVariables c declared = .error e) : ∃ names, e = .missingVariables names := by
  rw [requireVariables, Context.checkRequired] at h
  rcases hmissing : c.missing declared with _ | ⟨name, names⟩
  · rw [hmissing] at h
    cases h
  · rw [hmissing] at h
    cases h
    exact ⟨_, rfl⟩

theorem checkVariables_eq_error {c : Context} {declared : Fields Variable} {e : CompileError}
    (h : checkVariables c declared = .error e) : ∃ name fault, e = .invalidVariable name fault := by
  induction declared with
  | nil => cases h
  | cons entry rest ih =>
    obtain ⟨name, v⟩ := entry
    rw [checkVariables] at h
    rcases hfault : (c.vars.get? name).bind fun value => v.fault? value.text with _ | fault
    · rw [hfault] at h
      exact ih h
    · rw [hfault] at h
      cases h
      exact ⟨name, fault, rfl⟩

theorem inputValue_eq_error {d : Disk} {declared : Fields Variable} {name text : String}
    {e : CompileError} (h : inputValue d declared name text = .error e) :
    ∃ error, e = .variableFile name text error := by
  rw [inputValue] at h
  split at h
  · split at h
    · cases h
    · cases h
      exact ⟨_, rfl⟩
  · cases h

section Variables

variable {bad : CompileError → Prop}

theorem avoids_bindInputs (hbad : ∀ e : CompileError, e.OfVariable → ¬ bad e) (d : Disk)
    (declared : Fields Variable) (inputs : Fields String) :
    (bindInputs d declared inputs).Avoids bad := by
  induction inputs with
  | nil => exact avoids_pure _
  | cons entry rest ih =>
    obtain ⟨name, text⟩ := entry
    rw [bindInputs]
    refine (avoids_ofExcept fun e he => ?_).bind fun _ _ => (avoids_change _).bind fun _ _ => ih
    obtain ⟨error, rfl⟩ := inputValue_eq_error he
    exact hbad _ trivial

/-- What fails while variables are bound is about a variable. -/
theorem avoids_bindVariables (hbad : ∀ e : CompileError, e.OfVariable → ¬ bad e) (d : Disk)
    (w : Workflow) (inputs : Fields String) : (bindVariables d w inputs).Avoids bad := by
  refine (avoids_bindInputs hbad d w.vars inputs).bind fun _ _ => (avoids_change _).bind fun _ _ =>
    (avoids_ask _).bind fun c _ => (avoids_ofExcept fun e he => ?_).bind fun _ _ =>
      avoids_ofExcept fun e he => ?_
  · obtain ⟨names, rfl⟩ := requireVariables_eq_error he
    exact hbad _ trivial
  · obtain ⟨name, fault, rfl⟩ := checkVariables_eq_error he
    exact hbad _ trivial

end Variables

theorem requireValid_eq_error {order : SetOrder} {w : Workflow} {e : CompileError}
    (h : requireValid order w = .error e) : e = .invalid (w.findings order) := by
  rw [requireValid] at h
  split at h
  · cases h
  · cases h
    rfl

/-- A workflow is compiled if its variables are bound and its own steps are compiled. -/
theorem avoids_compileWorkflow_of_batch {bad : CompileError → Prop} {settings : RunSettings}
    {d : Disk} {w : Workflow} {inputs : Fields String}
    (hvariables : ∀ e : CompileError, e.OfVariable → ¬ bad e)
    (hinvalid : w.findings ≠ [] → ¬ bad (.invalid (w.findings settings.order)))
    (htop : w.findings = [] → (w.topBatch.compile settings).Avoids bad) :
    (compileWorkflow settings d w inputs).Avoids bad := by
  by_cases hfindings : w.findings = []
  · have hvalid : ∀ e, requireValid settings.order w ≠ .error e := by
      rw [requireValid_eq_ok_iff.2 hfindings]
      exact fun e he => by cases he
    exact (avoids_ofExcept fun e he => absurd he (hvalid e)).bind fun _ _ =>
      (avoids_bindVariables hvariables d w inputs).bind fun _ _ =>
        (avoids_change _).bind fun _ _ => htop hfindings
  · refine (avoids_ofExcept fun e he => ?_).bind fun _ hvalid => ?_
    · rw [requireValid_eq_error he]
      exact hinvalid hfindings
    · exact absurd (requireValid_eq_ok_iff.1 hvalid.eq_of_ofExcept) hfindings

end WorkflowCompiler
