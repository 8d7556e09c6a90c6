import WorkflowCompiler.Proofs.Compilation.Lasting
import WorkflowCompiler.Proofs.Compilation.Runs
import WorkflowCompiler.Proofs.Context.Leftovers

/-!
# Strict compilations leave no placeholders

Where nothing is deferred and the caller binds nothing late, the only names that are ever bound
late are those of a repetition, and only while its own fields are compiled. So the texts of
compiled steps hold no placeholders but for those fields, and what is left there is left to the
item and its number (`Compiler.leftTo_of_compile`).
-/

namespace WorkflowCompiler

open Attempt

/-- Compiling keeps strict contexts strict. -/
theorem lasting_strict : Lasting Context.Strict where
  remembers := Context.Strict.of_remembers
  enter := fun id hc => hc.enter id
  withAgent := fun agent hc => hc.withAgent agent
  bindAll := fun names hc => hc.bindAll names
  unbindAll := fun _ hc => hc.unbindAll

/-- In some strict context, the computation ends with the result. -/
def StrictlyYields {α : Type} (roots : List String) (x : Compiling α) (a : α) : Prop :=
  x.YieldsFrom (Session.Where (Context.Strict roots)) a

namespace StrictlyYields

variable {roots : List String} {step field : String} {α β : Type}

/-- The parts of a composed computation are run in strict contexts. -/
theorem of_bind {x : Compiling α} {f : α → Compiling β} {b : β}
    (h : StrictlyYields roots (x >>= f) b) (hx : Composed .any roots x) :
    ∃ a, StrictlyYields roots x a ∧ StrictlyYields roots (f a) b :=
  YieldsFrom.of_bind h (lasting_strict.preserves hx)

theorem of_map {x : Compiling α} {f : α → β} {b : β}
    (h : StrictlyYields roots (x >>= fun a => pure (f a)) b) :
    ∃ a, StrictlyYields roots x a ∧ b = f a :=
  YieldsFrom.of_map h

theorem eq_of_pure {a b : α} (h : StrictlyYields roots (pure a) b) : b = a :=
  h.yields.eq_of_pure

theorem not_fail {e : CompileError} {a : α} : ¬ StrictlyYields roots (fail e) a :=
  fun h => not_yields_fail h.yields

/-! ## Fields -/

theorem leftTo_text {value out : String}
    (h : StrictlyYields roots (Compiling.text step field value) out) : LeftTo roots out := by
  obtain ⟨s, s', hs, h⟩ := h
  obtain ⟨s'', hreads, -⟩ := reads_text step field value s
  rw [hreads, Prod.mk.injEq] at h
  exact hs.leftTo_of_substituteIn (eq_ok_of_mapError_eq_ok h.1)

theorem leftTo_optional {value out : Option String}
    (h : StrictlyYields roots (Compiling.optional step field value) out) :
    ∀ text ∈ out.toList, LeftTo roots text := by
  cases value with
  | none =>
    cases h.eq_of_pure
    exact List.forall_mem_nil _
  | some value =>
    obtain ⟨text, htext, rfl⟩ := h.of_map
    exact List.forall_mem_singleton.2 htext.leftTo_text

/-- A default that holds no placeholder will do. -/
theorem leftTo_default {default : String} {value : Option String} {out : String}
    (h : StrictlyYields roots (value.elim (pure default) (Compiling.text step field)) out)
    (hdefault : hasPlaceholders default = false) : LeftTo roots out := by
  cases value with
  | none =>
    cases h.eq_of_pure
    exact leftTo_of_hasPlaceholders hdefault
  | some value => exact leftTo_text h

theorem leftTo_required {value : Option String} {out : String}
    (h : StrictlyYields roots (Compiling.required step field value) out) : LeftTo roots out := by
  rw [Compiling.required] at h
  rcases hvalue : value.filter fun v => !Text.allBlank v with _ | v
  · rw [hvalue] at h
    exact absurd h not_fail
  · rw [hvalue] at h
    exact h.leftTo_text

/-- Each result for a list is one for a member of the list. -/
theorem exists_of_each {f : α → Compiling β} {l : List α} {bs : List β}
    (h : StrictlyYields roots (each f l) bs) (hf : ∀ a, Composed .any roots (f a)) {b : β}
    (hb : b ∈ bs) : ∃ a, StrictlyYields roots (f a) b := by
  obtain ⟨a, -, ha⟩ := exists_of_mem_forall₂
    (YieldsFrom.of_each h fun a _ => lasting_strict.preserves (hf a)) hb
  exact ⟨a, ha⟩

theorem leftTo_numbered {values out : List String}
    (h : StrictlyYields roots (Compiling.numbered step field values) out) :
    ∀ text ∈ out, LeftTo roots text := by
  intro text htext
  obtain ⟨entry, hentry⟩ := h.exists_of_each (fun _ => .text trivial) htext
  exact hentry.leftTo_text

theorem leftTo_texts {values out : Fields String}
    (h : StrictlyYields roots (Compiling.texts step field values) out) :
    ∀ text ∈ out.map Prod.snd, LeftTo roots text := by
  intro text htext
  obtain ⟨entry, hentry, rfl⟩ := List.mem_map.1 htext
  obtain ⟨declared, hdeclared⟩ :=
    h.exists_of_each (fun _ => .bind (.text trivial) fun _ => .pure _) hentry
  obtain ⟨value, hvalue, rfl⟩ := hdeclared.of_map
  exact hvalue.leftTo_text

mutual

theorem leftTo_value {v out : Json} (h : StrictlyYields roots (Compiling.value step field v) out) :
    ∀ text ∈ out.strings, LeftTo roots text := by
  cases v with
  | str s =>
    rw [Compiling.value] at h
    obtain ⟨text, htext, rfl⟩ := h.of_map
    rw [Json.strings]
    exact List.forall_mem_singleton.2 htext.leftTo_text
  | arr items =>
    rw [Compiling.value] at h
    obtain ⟨out, hout, rfl⟩ := h.of_map
    rw [Json.strings]
    exact leftTo_valueItems hout
  | obj fields =>
    rw [Compiling.value] at h
    obtain ⟨out, hout, rfl⟩ := h.of_map
    rw [Json.strings]
    exact leftTo_valueFields hout
  | _ =>
    rw [Compiling.value] at h
    cases h.eq_of_pure
    rw [Json.strings] <;> simp

theorem leftTo_valueItems {items out : List Json}
    (h : StrictlyYields roots (Compiling.valueItems step field items) out) :
    ∀ text ∈ Json.stringsOfItems out, LeftTo roots text := by
  cases items with
  | nil =>
    rw [Compiling.valueItems] at h
    cases h.eq_of_pure
    rw [Json.stringsOfItems]
    exact List.forall_mem_nil _
  | cons item rest =>
    rw [Compiling.valueItems] at h
    obtain ⟨first, hfirst, h⟩ := h.of_bind (.value fun _ _ => trivial)
    obtain ⟨others, hothers, rfl⟩ := h.of_map
    rw [Json.stringsOfItems, List.forall_mem_append]
    exact ⟨leftTo_value hfirst, leftTo_valueItems hothers⟩

theorem leftTo_valueFields {fields out : List (String × Json)}
    (h : StrictlyYields roots (Compiling.valueFields step field fields) out) :
    ∀ text ∈ Json.stringsOfFields out, LeftTo roots text := by
  cases fields with
  | nil =>
    rw [Compiling.valueFields] at h
    cases h.eq_of_pure
    rw [Json.stringsOfFields]
    exact List.forall_mem_nil _
  | cons entry rest =>
    obtain ⟨name, item⟩ := entry
    rw [Compiling.valueFields] at h
    obtain ⟨first, hfirst, h⟩ := h.of_bind (.value fun _ _ => trivial)
    obtain ⟨others, hothers, rfl⟩ := h.of_map
    rw [Json.stringsOfFields, List.forall_mem_append]
    exact ⟨leftTo_value hfirst, leftTo_valueFields hothers⟩

end

theorem leftTo_values {entries out : Fields Json}
    (h : StrictlyYields roots (Compiling.values step field entries) out) :
    ∀ text ∈ valueStrings out, LeftTo roots text := by
  intro text htext
  obtain ⟨entry, hentry, htext⟩ := List.mem_flatMap.1 htext
  obtain ⟨declared, hdeclared⟩ :=
    h.exists_of_each (fun _ => .bind (.value fun _ _ => trivial) fun _ => .pure _) hentry
  obtain ⟨value, hvalue, rfl⟩ := hdeclared.of_map
  exact leftTo_value hvalue text htext

end StrictlyYields

/-! ## Configurations -/

/-- The texts of the template and the variables of a target. -/
def CompiledTarget.texts {σ : Type} (t : CompiledTarget σ) : List String :=
  t.template.toList ++ valueStrings t.vars

/-- The targets of a compiled branch. -/
def BranchConfig.targets {σ : Type} (c : BranchConfig σ) : List (CompiledTarget σ) :=
  [Outcome.onTrue, .onFalse, .onTimeout].filterMap c.target?

/-- The texts of a configuration that no item of a repetition is left for. The agent is one of them
if the step names it, and the condition of a branch if it is no gate. -/
def Config.texts {σ : Type} (named gate : Bool) : Config σ → List String
  | .shell c => c.command :: (c.workdir.toList ++ c.env.map Prod.snd)
  | .spawn c =>
    c.agent :: (c.spawnArgs ++ c.adapter.toList ++ c.workdir.toList ++ c.env.map Prod.snd ++
      c.prompt.toList)
  | .kill c => [c.agent, c.timeout]
  | .expand c => c.template :: valueStrings c.vars
  | .foreach _ => []
  | .branch c =>
    (if gate then [] else [c.condition]) ++ c.prompt.toList ++ c.workdir.toList ++
      c.env.map Prod.snd ++ c.timeout.toList ++ c.targets.flatMap CompiledTarget.texts
  | .agent c => (if named then c.agent.toList else []) ++ [c.mode, c.prompt]

/-- The texts of a configuration in which an item of a repetition may be left for later. -/
def Config.repetitionTexts {σ : Type} : Config σ → List String
  | .foreach c => c.template :: (valueStrings c.vars ++ c.items.toList ++ c.itemsFile.toList)
  | _ => []

section Configurations

variable {roots : List String} {settings : RunSettings} {id name : String} {d : Declaration}

theorem leftTo_shellConfig (hquoting : settings.shellQuoting = false) {config : ShellConfig}
    (h : StrictlyYields roots (shellConfig settings id d) config) :
    ∀ text ∈ config.command :: (config.workdir.toList ++ config.env.map Prod.snd),
      LeftTo roots text := by
  rw [shellConfig, hquoting] at h
  obtain ⟨command, hcommand, h⟩ := h.of_bind (.command trivial)
  obtain ⟨workdir, hworkdir, h⟩ := h.of_bind (.optional fun _ _ => trivial)
  obtain ⟨env, henv, rfl⟩ := h.of_map
  rw [List.forall_mem_cons, List.forall_mem_append]
  exact ⟨StrictlyYields.leftTo_text hcommand, hworkdir.leftTo_optional, henv.leftTo_texts⟩

theorem leftTo_spawnConfig {config : SpawnConfig}
    (h : StrictlyYields roots (spawnConfig id d) config) :
    ∀ text ∈ config.agent :: (config.spawnArgs ++ config.adapter.toList ++ config.workdir.toList ++
      config.env.map Prod.snd ++ config.prompt.toList), LeftTo roots text := by
  obtain ⟨agent, hagent, h⟩ := h.of_bind (.required fun _ _ => trivial)
  obtain ⟨spawnArgs, hargs, h⟩ := h.of_bind (.numbered fun _ _ => trivial)
  obtain ⟨adapter, hadapter, h⟩ := h.of_bind (.optional fun _ _ => trivial)
  obtain ⟨workdir, hworkdir, h⟩ := h.of_bind (.optional fun _ _ => trivial)
  obtain ⟨env, henv, h⟩ := h.of_bind (.texts fun _ _ => trivial)
  obtain ⟨prompt, hprompt, rfl⟩ := h.of_map
  simp only [List.forall_mem_cons, List.forall_mem_append]
  exact ⟨hagent.leftTo_required, ⟨⟨⟨hargs.leftTo_numbered, hadapter.leftTo_optional⟩,
    hworkdir.leftTo_optional⟩, henv.leftTo_texts⟩, hprompt.leftTo_optional⟩

theorem leftTo_killConfig {config : KillConfig}
    (h : StrictlyYields roots (killConfig id d) config) :
    ∀ text ∈ [config.agent, config.timeout], LeftTo roots text := by
  rw [killConfig_eq] at h
  obtain ⟨timeout, htimeout, h⟩ := h.of_bind (.elim (.pure _) fun _ _ => .text trivial)
  obtain ⟨agent, hagent, rfl⟩ := h.of_map
  simp only [List.forall_mem_cons]
  exact ⟨hagent.leftTo_required, htimeout.leftTo_default (by decide +kernel),
    List.forall_mem_nil _⟩

theorem leftTo_expandConfig {config : ExpandConfig}
    (h : StrictlyYields roots (expandConfig id d) config) :
    ∀ text ∈ config.template :: valueStrings config.vars, LeftTo roots text := by
  obtain ⟨template, htemplate, h⟩ := h.of_bind (.required fun _ _ => trivial)
  obtain ⟨vars, hvars, rfl⟩ := h.of_map
  rw [List.forall_mem_cons]
  exact ⟨htemplate.leftTo_required, hvars.leftTo_values⟩

theorem leftTo_foreachFields {config : ForeachConfig}
    (h : StrictlyYields roots (foreachFields id d) config) :
    ∀ text ∈ config.template :: (valueStrings config.vars ++ config.items.toList ++
      config.itemsFile.toList), LeftTo roots text := by
  rw [foreachFields_eq] at h
  obtain ⟨parallel, -, h⟩ :=
    h.of_bind (.elim (.pure _) fun _ _ => .flag fun _ _ => trivial)
  obtain ⟨maxConcurrent, -, h⟩ := h.of_bind (.optionally fun _ _ => .count fun _ _ => trivial)
  obtain ⟨template, htemplate, h⟩ := h.of_bind (.required fun _ _ => trivial)
  obtain ⟨vars, hvars, h⟩ := h.of_bind (.values fun _ _ => trivial)
  obtain ⟨items, hitems, h⟩ := h.of_bind (.optional fun _ _ => trivial)
  obtain ⟨itemsFile, hfile, rfl⟩ := h.of_map
  simp only [List.forall_mem_cons, List.forall_mem_append]
  exact ⟨htemplate.leftTo_required,
    ⟨hvars.leftTo_values, hitems.leftTo_optional⟩, hfile.leftTo_optional⟩

/-- The fields of a repetition are compiled while its names alone are bound late. -/
theorem fields_of_foreachConfig {config : ForeachConfig}
    (h : StrictlyYields [] (foreachConfig id d) config) :
    StrictlyYields d.repetitionRoots (foreachFields id d) config := by
  have hrepeating : StrictlyYields [] (repeating d.repetitionRoots (foreachFields id d)) config →
      StrictlyYields d.repetitionRoots (foreachFields id d) config := by
    rintro ⟨s, s', hs, h⟩
    obtain ⟨⟨⟩, t, ht, h⟩ := bind_eq_ok h
    cases ht
    rw [ensuring_apply, Prod.mk.injEq] at h
    exact ⟨s.update (·.bindAll d.repetitionRoots), _, hs.bindAll d.repetitionRoots,
      Prod.ext h.1 rfl⟩
  rw [foreachConfig] at h
  cases hitems : d.items with
  | none =>
    cases hfile : d.itemsFile with
    | none =>
      rw [hitems, hfile] at h
      exact absurd h StrictlyYields.not_fail
    | some file =>
      rw [hitems, hfile] at h
      exact hrepeating h
  | some items =>
    cases hfile : d.itemsFile with
    | none =>
      rw [hitems, hfile] at h
      exact hrepeating h
    | some file =>
      rw [hitems, hfile] at h
      exact absurd h StrictlyYields.not_fail

theorem leftTo_branchCondition (hquoting : settings.shellQuoting = false) {condition : String}
    (h : StrictlyYields roots (branchCondition settings id d false) condition) :
    LeftTo roots condition := by
  rw [branchCondition, hquoting] at h
  rcases hcondition : d.condition.filter fun v => !Text.allBlank v with _ | v
  · rw [hcondition] at h
    exact absurd h StrictlyYields.not_fail
  · rw [hcondition] at h
    exact StrictlyYields.leftTo_text h

theorem leftTo_branchFields (hquoting : settings.shellQuoting = false) {gate : Bool}
    {config : BranchConfig CompiledStep}
    (h : StrictlyYields roots (branchFields settings id d gate) config) :
    ∀ text ∈ (if gate then [] else [config.condition]) ++ config.prompt.toList ++
      config.workdir.toList ++ config.env.map Prod.snd ++ config.timeout.toList,
      LeftTo roots text := by
  obtain ⟨condition, hcondition, h⟩ :=
    h.of_bind (composed_branchCondition fun _ _ => trivial)
  obtain ⟨prompt, hprompt, h⟩ := h.of_bind (.optional fun _ _ => trivial)
  obtain ⟨workdir, hworkdir, h⟩ := h.of_bind (.optional fun _ _ => trivial)
  obtain ⟨env, henv, h⟩ := h.of_bind (.texts fun _ _ => trivial)
  obtain ⟨timeout, htimeout, rfl⟩ := h.of_map
  simp only [List.forall_mem_append]
  refine ⟨⟨⟨⟨?_, hprompt.leftTo_optional⟩, hworkdir.leftTo_optional⟩, henv.leftTo_texts⟩,
    htimeout.leftTo_optional⟩
  cases gate with
  | true => exact List.forall_mem_nil _
  | false => exact List.forall_mem_singleton.2 (leftTo_branchCondition hquoting hcondition)

/-- The agent of the run is not looked at, and counts only if the step names none. -/
theorem leftTo_agentConfig {config : AgentConfig}
    (h : StrictlyYields roots (agentConfig settings id d) config) :
    ∀ text ∈ (if d.agentName.isSome then config.agent.toList else []) ++
      [config.mode, config.prompt], LeftTo roots text := by
  rw [agentConfig_eq] at h
  obtain ⟨agent, hagent, h⟩ := h.of_bind (composed_agentOf fun _ _ => trivial)
  obtain ⟨mode, hmode, h⟩ := h.of_bind (.elim (.pure _) fun _ _ => .text trivial)
  obtain ⟨prompt, hprompt, rfl⟩ := h.of_map
  simp only [List.forall_mem_append, List.forall_mem_cons]
  refine ⟨?_, hmode.leftTo_default (by decide +kernel), hprompt.leftTo_text,
    List.forall_mem_nil _⟩
  rw [agentOf] at hagent
  cases hname : d.agentName with
  | none => exact List.forall_mem_nil _
  | some raw =>
    rw [hname] at hagent
    obtain ⟨text, htext, rfl⟩ := hagent.of_map
    exact List.forall_mem_singleton.2 htext.leftTo_text

/-- The fields of a target are compiled after its inline steps, but strictly as well. -/
theorem leftTo_compileOutcome {target : Option (Target Step)}
    {ct : CompiledTarget CompiledStep}
    (h : StrictlyYields [] (compileOutcome settings id name target) (some ct)) :
    ∀ text ∈ ct.texts, LeftTo [] text := by
  cases target with
  | none =>
    rw [compileOutcome] at h
    cases h.eq_of_pure
  | some t =>
    have hsteps : Composed .any []
        (if t.inline = [] then pure [] else compileInline settings t.inline id) := by
      split
      · exact .pure _
      · exact composed_any_inline settings t.inline id
    rw [compileOutcome_some] at h
    obtain ⟨steps, -, h⟩ := h.of_bind hsteps
    obtain ⟨template, htemplate, h⟩ := h.of_bind (.optional fun _ _ => trivial)
    obtain ⟨vars, hvars, h⟩ := h.of_map
    cases h
    rw [CompiledTarget.texts, List.forall_mem_append]
    exact ⟨htemplate.leftTo_optional, hvars.leftTo_values⟩

/-- No text of a configuration keeps a placeholder, but for what is left to the names of a
repetition in its own fields. -/
theorem leftTo_compileConfig {s : Step} {cl : Classification} {config : Config CompiledStep}
    (hquoting : settings.shellQuoting = false)
    (h : StrictlyYields [] (compileConfig settings id s cl) config) :
    (∀ text ∈ config.texts s.agentName.isSome cl.gate, LeftTo [] text) ∧
      ∀ text ∈ config.repetitionTexts, LeftTo s.repetitionRoots text := by
  have hconfig := h
  rw [compileConfig] at h
  cases hexecutor : cl.executor with
  | shell =>
    rw [hexecutor] at h
    obtain ⟨fields, hfields, rfl⟩ := h.of_map
    exact ⟨leftTo_shellConfig hquoting hfields, List.forall_mem_nil _⟩
  | spawn =>
    rw [hexecutor] at h
    obtain ⟨fields, hfields, rfl⟩ := h.of_map
    exact ⟨leftTo_spawnConfig hfields, List.forall_mem_nil _⟩
  | kill =>
    rw [hexecutor] at h
    obtain ⟨fields, hfields, rfl⟩ := h.of_map
    exact ⟨leftTo_killConfig hfields, List.forall_mem_nil _⟩
  | expand =>
    rw [hexecutor] at h
    obtain ⟨fields, hfields, rfl⟩ := h.of_map
    exact ⟨leftTo_expandConfig hfields, List.forall_mem_nil _⟩
  | foreach =>
    rw [hexecutor] at h
    obtain ⟨fields, hfields, rfl⟩ := h.of_map
    exact ⟨List.forall_mem_nil _, leftTo_foreachFields (fields_of_foreachConfig hfields)⟩
  | agent =>
    rw [hexecutor] at h
    obtain ⟨fields, hfields, rfl⟩ := h.of_map
    exact ⟨leftTo_agentConfig hfields, List.forall_mem_nil _⟩
  | branch =>
    rw [hexecutor] at h
    obtain ⟨fields, hfields, h⟩ := h.of_bind (composed_branchFields fun _ _ => trivial)
    obtain ⟨onTrue, -, h⟩ := h.of_bind (composed_any_outcome settings id _ _)
    obtain ⟨onFalse, -, h⟩ := h.of_bind (composed_any_outcome settings id _ _)
    obtain ⟨onTimeout, -, rfl⟩ := h.of_map
    have hplain := leftTo_branchFields hquoting hfields
    rw [Config.texts, List.forall_mem_append]
    refine ⟨⟨hplain, fun text htext => ?_⟩, List.forall_mem_nil _⟩
    obtain ⟨ct, hct, htext⟩ := List.mem_flatMap.1 htext
    obtain ⟨o, -, ho⟩ := List.mem_filterMap.1 hct
    have houtcome := lasting_strict.outcome_yieldsFrom hconfig o
    rw [ho] at houtcome
    exact leftTo_compileOutcome houtcome text htext

end Configurations

/-! ## Workflows -/

/-- A strict compilation leaves no placeholder in any step of the compiled tree, but for those that
the fields of a repetition leave to its item and its number. No reference to outputs is among
them. -/
theorem Compiler.leftTo_of_compile {c : Compiler} {d : Disk} {w : Workflow}
    {inputs : Fields String} (hdeferred : c.session.context.deferred = false)
    (hlate : c.session.context.late = []) (hquoting : c.settings.shellQuoting = false)
    {out : List CompiledStep} (h : (c.compile d w inputs).1 = .ok out) {cs : CompiledStep}
    (hcs : InTree out cs) :
    ∃ b, w.ReachedBatch b ∧ ∃ s ∈ b.steps, ∃ cl, s.classify? = some cl ∧
      CompiledFrom c.settings (b.fullId s) (b.compiledNeeds s) s cs ∧
      (∀ text ∈ cs.title.toList ++ cs.config.texts s.agentName.isSome cl.gate,
        hasPlaceholders text = false) ∧
      ∀ text ∈ cs.config.repetitionTexts, ∀ path ∈ placeholderPaths text,
        RootedIn s.repetitionRoots path ∧ Path.isOutputReference path = false := by
  obtain ⟨-, vars, -, compiled, hsteps, horder⟩ := Compiler.compile_eq_ok_iff.1 h
  have hrun : (c.session.inRun c.settings.workflowId vars).context.Strict [] := by
    refine ⟨hdeferred, fun name hname => ?_⟩
    rw [← hlate]
    exact hname
  obtain ⟨b, hreached, s, hs, hwhere⟩ :=
    lasting_strict.exists_compiledWhere hrun hsteps horder hcs
  have hfrom := hwhere.compiledFrom
  obtain ⟨cs, hyields, rfl⟩ := hwhere
  obtain ⟨cl, hclass, htitle, hconfig⟩ := lasting_strict.config_yieldsFrom hyields
  obtain ⟨htexts, hrepetition⟩ := leftTo_compileConfig hquoting hconfig
  refine ⟨b, hreached, s, hs, cl, hclass, hfrom, fun text htext => ?_, ?_⟩
  · rw [← leftTo_nil]
    rcases List.mem_append.1 htext with htext | htext
    · exact StrictlyYields.leftTo_optional htitle text htext
    · exact htexts text htext
  · intro text htext path hpath
    have hrooted := hrepetition text htext path hpath
    exact ⟨hrooted, hrooted.isOutputReference_eq_false⟩

/-- A step that repeats a release for each item of a list. -/
def shipEach : Step :=
  { id := "each", executor := some "foreach", template := some "release", items := some "[1, 2]"
    indexVar := some "n"
    vars := [("target", .str "{{goal}}-{{item.name}}")] }

/-- A workflow that does so inside of a branch. -/
def shipWorkflow : Workflow :=
  { name := "ship"
    vars := [("tool", { default := some (.str "make {{goal}}") }),
      ("goal", { default := some (.str "all") })]
    steps :=
      [{ id := "build", executor := some "branch", condition := some "{{tool}}"
         onTrue := some { inline := [shipEach] } }] }

/-- A compiler that defers nothing. -/
def shipCompiler : Compiler :=
  { settings := { workflowId := "run", defaultAssignee := some "ada" }, session := {} }

/-- Nothing but the item is left in the repetition. -/
theorem shipWorkflow_leftTo :
    ∃ out cs, (shipCompiler.compile {} shipWorkflow []).1 = .ok out ∧ InTree out cs ∧
      cs.id = "build.each" ∧
      ∃ b, shipWorkflow.ReachedBatch b ∧ ∃ s ∈ b.steps, ∃ cl, s.classify? = some cl ∧
        CompiledFrom shipCompiler.settings (b.fullId s) (b.compiledNeeds s) s cs ∧
        (∀ text ∈ cs.title.toList ++ cs.config.texts s.agentName.isSome cl.gate,
          hasPlaceholders text = false) ∧
        ∀ text ∈ cs.config.repetitionTexts, ∀ path ∈ placeholderPaths text,
          RootedIn s.repetitionRoots path ∧ Path.isOutputReference path = false := by
  have hcompiles : (shipCompiler.compile {} shipWorkflow []).1.toOption.isSome = true := by
    decide +kernel
  obtain ⟨out, hok⟩ := exists_eq_ok_of_isSome hcompiles
  have hunder : shipWorkflow.topBatch.UnderBranch
      { parent := some "build", outer := ["build"], steps := [shipEach] } :=
    ⟨_, List.mem_cons_self, ⟨⟨.branch, false, none⟩, rfl, rfl⟩, .onTrue, _, rfl,
      List.cons_ne_nil _ _, rfl⟩
  obtain ⟨-, hbatch⟩ := CompiledBatch.of_workflow_yields (yields_of_compile hok)
  obtain ⟨cs, hcs, hfrom⟩ := hbatch.exists_inTree (.single hunder) List.mem_cons_self
  exact ⟨out, cs, hok, hcs, hfrom.id_eq, Compiler.leftTo_of_compile rfl rfl rfl hok hcs⟩

end WorkflowCompiler
