import WorkflowCompiler.Proofs.Compilation.Tree
import WorkflowCompiler.Proofs.Context.Changes

/-!
# What compiling a step is composed of

Compiling a step does four things to a session: it enters the step, it binds the agent of the
step, it substitutes texts, and around the fields of a repetition it binds names late. Everything
else is sequencing, so that a statement about compiled steps needs a proof for these four only. A
computation of this kind is `Composed`, and compiling a step is (`composed_compileEntered`).

Which texts are substituted, and which names are bound late there, is said by
`Step.compiledTexts`. A statement that depends on the texts, on the ids or on the names of
repetitions is made for those that an `Allowance` allows.
-/

namespace WorkflowCompiler

open Attempt

/-! ## Texts that are substituted -/

mutual

/-- The texts that are values inside a JSON value, at any depth. The names of objects are left out:
they are not compiled. -/
def Json.strings : Json → List String
  | .str s => [s]
  | .arr items => Json.stringsOfItems items
  | .obj fields => Json.stringsOfFields fields
  | _ => []

/-- The texts inside the members of a list. -/
def Json.stringsOfItems : List Json → List String
  | [] => []
  | item :: rest => item.strings ++ Json.stringsOfItems rest

/-- The texts inside the values of an object. -/
def Json.stringsOfFields : List (String × Json) → List String
  | [] => []
  | (_, item) :: rest => item.strings ++ Json.stringsOfFields rest

end

/-- The texts inside the values of a table. -/
def valueStrings (values : Fields Json) : List String := values.flatMap fun entry => entry.2.strings

/-- The text of a setting that is one. -/
def Setting.string? : Setting → Option String
  | .text s => some s
  | _ => none

/-- The texts of the fields of a repetition, which are compiled while its names are bound late. -/
def Declaration.repetitionTexts (d : Declaration) : List String :=
  (d.parallel.bind Setting.string?).toList ++ (d.maxConcurrent.bind Setting.string?).toList ++
    d.template.toList ++ valueStrings d.vars ++ d.items.toList ++ d.itemsFile.toList

/-- The texts that are substituted when the fields of a step are compiled, outcomes and the
fields of a repetition apart. -/
def Declaration.fieldTexts (d : Declaration) (c : Classification) : List String :=
  match c.executor with
  | .shell => d.commandText.getD "" :: (d.workdir.toList ++ d.env.map Prod.snd)
  | .spawn =>
    d.spawnArgs ++ d.adapter.toList ++ d.workdir.toList ++ d.env.map Prod.snd ++
      d.promptText.toList
  | .kill => d.timeout.toList
  | .expand => d.template.toList ++ valueStrings d.vars
  | .foreach => []
  | .branch =>
    (if c.gate then [] else d.condition.toList) ++ d.promptText.toList ++ d.workdir.toList ++
      d.env.map Prod.snd ++ d.timeout.toList
  | .agent => d.mode.toList ++ [d.promptText.getD ""]

/-- The texts of a target that are substituted, those of its inline steps apart. -/
def Target.compiledTexts (t : Target Step) : List String := t.template.toList ++ valueStrings t.vars

/-- The texts that are substituted when a step is compiled, with the names that are bound late
there. The texts of inline steps are not among them. -/
def Step.compiledTexts (s : Step) : List (List String × String) :=
  s.agentName.toList.map ([], ·) ++
    match s.classify? with
    | none => []
    | some c =>
      (s.title.toList ++ s.fieldTexts c).map ([], ·) ++
        match c.executor with
        | .foreach => s.repetitionTexts.map (s.repetitionRoots, ·)
        | .branch => (s.targets.flatMap fun entry => entry.2.compiledTexts).map ([], ·)
        | _ => []

/-! ## Composed computations -/

/-- The error comes from a text that could not be substituted. -/
def CompileError.OfText : CompileError → Prop
  | field _ _ _ | unresolved _ => True
  | _ => False

/-- Binds names late, runs a computation, and undoes the binding. -/
def repeating {α : Type} (names : List String) (x : Compiling α) : Compiling α := do
  Compiling.update (·.bindAll names)
  Attempt.ensuring x (·.update (·.unbindAll names))

/-- The agent of a step that has been entered: the one it names, or else the one of the run. -/
def agentOf (settings : RunSettings) (id : String) (d : Declaration) :
    Compiling (Option String) :=
  match d.agentName with
  | some raw => do
    let agent ← Compiling.text id d.agentField raw
    pure (some agent)
  | none => pure settings.defaultAssignee

/-- Binds an agent, if there is one. -/
def bindIfNamed : Option String → Compiling Unit
  | some agent => Compiling.update (·.withAgent agent)
  | none => pure ()

/-- Binds the agent of a step that has been entered. -/
def nameAgent (settings : RunSettings) (id : String) (d : Declaration) : Compiling Unit := do
  let agent ← agentOf settings id d
  bindIfNamed agent

/-- Compiles a step that has been entered. -/
def compileEntered (settings : RunSettings) (id : String) (s : Step) : Compiling CompiledStep := do
  nameAgent settings id s.toDeclaration
  match s.classify? with
  | none => Attempt.fail (unsupportedStep id s.toDeclaration)
  | some c => do
    let title ← Compiling.optional id "title" s.title
    let config ← compileConfig settings id s c
    pure { id, title, needs := s.needs, config }

theorem bindAgent_eq (settings : RunSettings) (id : String) (d : Declaration) :
    bindAgent settings id d = (do
      Compiling.update Context.withoutAgent
      nameAgent settings id d) := by
  rw [bindAgent, nameAgent, agentOf]
  cases d.agentName <;> rfl

/-- The fields that have a default, as parts of their own. -/
theorem killConfig_eq (id : String) (d : Declaration) :
    killConfig id d = (do
      let timeout ← d.timeout.elim (pure "10s") (Compiling.text id "timeout")
      let agent ← Compiling.required id d.agentField d.agentName
      pure { agent, graceful := d.graceful.getD true, timeout }) := by
  rw [killConfig]
  cases d.timeout <;> rfl

theorem foreachFields_eq (id : String) (d : Declaration) :
    foreachFields id d = (do
      let parallel ← d.parallel.elim (pure true) (Compiling.flag id "parallel")
      let maxConcurrent ← Attempt.optional (Compiling.count id "max_concurrent") d.maxConcurrent
      let template ← Compiling.required id "template" d.template
      let vars ← Compiling.values id "variables" d.vars
      let items ← Compiling.optional id "items" d.items
      let itemsFile ← Compiling.optional id "items_file" d.itemsFile
      pure
        { template, vars, items, itemsFile, itemVar := d.itemName, indexVar := d.indexVar,
          parallel, maxConcurrent }) := by
  rw [foreachFields]
  cases d.parallel <;> rfl

theorem agentConfig_eq (settings : RunSettings) (id : String) (d : Declaration) :
    agentConfig settings id d = (do
      let agent ← agentOf settings id d
      let mode ← d.mode.elim (pure "autonomous") (Compiling.text id "mode")
      let prompt ← Compiling.text id d.promptField (d.promptText.getD "")
      pure { agent, prompt, mode, outputs := d.outputs }) := by
  rw [agentConfig, agentOf]
  cases d.agentName <;> cases d.mode <;> rfl

/-- To compile a step is to enter it, and to compile it then. -/
theorem compileStep_eq_entered (settings : RunSettings) (id : String) (s : Step) :
    compileStep settings id s = (do
      Compiling.update (·.enter id)
      compileEntered settings id s) := by
  rw [compileStep_eq, bindAgent_eq]
  rfl

/-- What a compilation may substitute and bind. -/
structure Allowance where
  /-- the texts that may be substituted where names are bound late -/
  text : List String → String → Prop
  /-- the texts that may be bound as they stand: ids, and the agent of the run -/
  value : String → Prop
  /-- the names that a repetition may bind late -/
  names : List String → Prop

/-- Everything is allowed. -/
def Allowance.any : Allowance := ⟨fun _ _ => True, fun _ => True, fun _ => True⟩

/-- The computation compiles parts of steps where certain names are bound late, and keeps to what
is allowed. -/
inductive Composed (A : Allowance) : List String → {α : Type} → Compiling α → Prop where
  /-- ends with a result -/
  | pure {late : List String} {α : Type} (a : α) : Composed A late (pure a : Compiling α)
  /-- ends as a result or an error that is at hand -/
  | ofExcept {late : List String} {α : Type} {r : Except CompileError α}
      (h : ∀ e, r = .error e → ¬ e.OfText) : Composed A late (ofExcept r)
  /-- substitutes a text -/
  | text {late : List String} {step field value : String} (h : A.text late value) :
      Composed A late (Compiling.text step field value)
  /-- substitutes a command -/
  | command {late : List String} {quoted : Bool} {step field value : String}
      (h : A.text late value) : Composed A late (Compiling.command quoted step field value)
  /-- enters a step -/
  | enter {id : String} (h : A.value id) : Composed A [] (Compiling.update (·.enter id))
  /-- binds the agent of a step -/
  | nameAgent {settings : RunSettings} {id : String} {d : Declaration}
      (htext : ∀ v ∈ d.agentName.toList, A.text [] v)
      (hvalue : ∀ v ∈ settings.defaultAssignee.toList, A.value v) :
      Composed A [] (nameAgent settings id d)
  /-- binds names late -/
  | repeating {names : List String} {α : Type} {x : Compiling α} (hnames : A.names names)
      (h : Composed A names x) : Composed A [] (repeating names x)
  /-- goes on with another computation -/
  | bind {late : List String} {α β : Type} {x : Compiling α} {f : α → Compiling β}
      (hx : Composed A late x) (hf : ∀ a, Composed A late (f a)) : Composed A late (x >>= f)

namespace Composed

variable {A : Allowance} {late : List String} {α β : Type} {step field : String}

theorem fail {e : CompileError} (h : ¬ e.OfText) :
    Composed A late (Attempt.fail e : Compiling α) := by
  refine .ofExcept (r := .error e) fun e' he => ?_
  cases he
  exact h

theorem each {f : α → Compiling β} {l : List α} (h : ∀ a ∈ l, Composed A late (f a)) :
    Composed A late (Attempt.each f l) := by
  induction l with
  | nil => exact .pure []
  | cons a l ih =>
    rw [each_cons]
    refine .bind (h a List.mem_cons_self) fun b => .bind (ih ?_) fun bs => .pure _
    intro a' ha'
    exact h a' (List.mem_cons_of_mem _ ha')

theorem optionally {f : α → Compiling β} {value : Option α}
    (h : ∀ a, value = some a → Composed A late (f a)) :
    Composed A late (Attempt.optional f value) := by
  cases value with
  | none => exact .pure none
  | some a => exact .bind (h a rfl) fun b => .pure _

theorem elim {x : Compiling β} {f : α → Compiling β} {value : Option α} (hx : Composed A late x)
    (hf : ∀ a, value = some a → Composed A late (f a)) : Composed A late (value.elim x f) := by
  cases value with
  | none => exact hx
  | some a => exact hf a rfl

/-! ## Fields -/

theorem optional {value : Option String} (h : ∀ v ∈ value.toList, A.text late v) :
    Composed A late (Compiling.optional step field value) :=
  optionally fun v hv => .text (h v (by simp [hv]))

theorem required {value : Option String} (h : ∀ v ∈ value.toList, A.text late v) :
    Composed A late (Compiling.required step field value) := by
  rw [Compiling.required]
  rcases hfilter : value.filter fun v => !Text.allBlank v with _ | v
  · exact .fail fun h => h
  · rw [Option.filter_eq_some_iff] at hfilter
    exact .text (h v (by simp [hfilter.1]))

theorem numbered {values : List String} (h : ∀ v ∈ values, A.text late v) :
    Composed A late (Compiling.numbered step field values) :=
  each fun entry hentry => .text (h entry.1 (List.fst_mem_of_mem_zipIdx hentry))

theorem texts {values : Fields String} (h : ∀ v ∈ values.map Prod.snd, A.text late v) :
    Composed A late (Compiling.texts step field values) :=
  each fun entry hentry =>
    .bind (.text (h entry.2 (List.mem_map_of_mem hentry))) fun _ => .pure _

mutual

theorem value {v : Json} (h : ∀ s ∈ v.strings, A.text late s) :
    Composed A late (Compiling.value step field v) := by
  cases v with
  | str s =>
    rw [Compiling.value]
    exact .bind (.text (h s (by simp [Json.strings]))) fun _ => .pure _
  | arr items =>
    rw [Compiling.value]
    rw [Json.strings] at h
    exact .bind (valueItems h) fun _ => .pure _
  | obj fields =>
    rw [Compiling.value]
    rw [Json.strings] at h
    exact .bind (valueFields h) fun _ => .pure _
  | _ =>
    rw [Compiling.value]
    exact .pure _

theorem valueItems {items : List Json} (h : ∀ s ∈ Json.stringsOfItems items, A.text late s) :
    Composed A late (Compiling.valueItems step field items) := by
  cases items with
  | nil =>
    rw [Compiling.valueItems]
    exact .pure _
  | cons item rest =>
    rw [Compiling.valueItems]
    rw [Json.stringsOfItems, List.forall_mem_append] at h
    exact .bind (value h.1) fun _ => .bind (valueItems h.2) fun _ => .pure _

theorem valueFields {fields : List (String × Json)}
    (h : ∀ s ∈ Json.stringsOfFields fields, A.text late s) :
    Composed A late (Compiling.valueFields step field fields) := by
  cases fields with
  | nil =>
    rw [Compiling.valueFields]
    exact .pure _
  | cons entry rest =>
    obtain ⟨name, item⟩ := entry
    rw [Compiling.valueFields]
    rw [Json.stringsOfFields, List.forall_mem_append] at h
    exact .bind (value h.1) fun _ => .bind (valueFields h.2) fun _ => .pure _

end

theorem values {entries : Fields Json} (h : ∀ s ∈ valueStrings entries, A.text late s) :
    Composed A late (Compiling.values step field entries) :=
  each fun entry hentry =>
    .bind (value fun s hs => h s (List.mem_flatMap.2 ⟨entry, hentry, hs⟩)) fun _ => .pure _

theorem flag {s : Setting} (h : ∀ v ∈ s.string?.toList, A.text late v) :
    Composed A late (Compiling.flag step field s) := by
  cases s with
  | text s =>
    refine .bind (.text (h s (by simp [Setting.string?]))) fun v => ?_
    cases readFlag? v with
    | none => exact .fail fun h => h
    | some b => exact .pure _
  | _ => exact .pure _

theorem count {s : Setting} (h : ∀ v ∈ s.string?.toList, A.text late v) :
    Composed A late (Compiling.count step field s) := by
  cases s with
  | text s =>
    refine .bind (.text (h s (by simp [Setting.string?]))) fun v => ?_
    cases Integer.readUnsigned? (Text.trimChars v.toList) with
    | none => exact .fail fun h => h
    | some n => exact .pure _
  | flag b => exact .fail fun h => h
  | count n =>
    by_cases hn : n.toInt < 0
    · rw [Compiling.count, if_pos hn]
      exact .fail fun h => h
    · rw [Compiling.count, if_neg hn]
      exact .pure _
  | number x =>
    by_cases hx : (x.isWhole && (!x.negative || x.isZero)) = true
    · rw [Compiling.count, if_pos hx]
      exact .pure _
    · rw [Compiling.count, if_neg hx]
      exact .fail fun h => h

end Composed

/-! ## Configurations -/

section Configurations

variable {A : Allowance} {late : List String} {settings : RunSettings} {id : String}
  {d : Declaration}

theorem composed_shellConfig
    (h : ∀ v ∈ d.commandText.getD "" :: (d.workdir.toList ++ d.env.map Prod.snd), A.text late v) :
    Composed A late (shellConfig settings id d) := by
  rw [List.forall_mem_cons, List.forall_mem_append] at h
  exact .bind (.command h.1) fun _ => .bind (.optional h.2.1) fun _ =>
    .bind (.texts h.2.2) fun _ => .pure _

theorem composed_spawnConfig (hagent : ∀ v ∈ d.agentName.toList, A.text late v)
    (h : ∀ v ∈ d.spawnArgs ++ d.adapter.toList ++ d.workdir.toList ++ d.env.map Prod.snd ++
      d.promptText.toList, A.text late v) : Composed A late (spawnConfig id d) := by
  simp only [List.forall_mem_append] at h
  obtain ⟨⟨⟨⟨hargs, hadapter⟩, hworkdir⟩, henv⟩, hprompt⟩ := h
  exact .bind (.required hagent) fun _ => .bind (.numbered hargs) fun _ =>
    .bind (.optional hadapter) fun _ => .bind (.optional hworkdir) fun _ =>
      .bind (.texts henv) fun _ => .bind (.optional hprompt) fun _ => .pure _

theorem composed_killConfig (hagent : ∀ v ∈ d.agentName.toList, A.text late v)
    (h : ∀ v ∈ d.timeout.toList, A.text late v) : Composed A late (killConfig id d) := by
  rw [killConfig_eq]
  exact .bind (.elim (.pure _) fun v hv => .text (h v (by simp [hv]))) fun _ =>
    .bind (.required hagent) fun _ => .pure _

theorem composed_expandConfig (h : ∀ v ∈ d.template.toList ++ valueStrings d.vars, A.text late v) :
    Composed A late (expandConfig id d) := by
  rw [List.forall_mem_append] at h
  exact .bind (.required h.1) fun _ => .bind (.values h.2) fun _ => .pure _

theorem composed_foreachFields (h : ∀ v ∈ d.repetitionTexts, A.text late v) :
    Composed A late (foreachFields id d) := by
  simp only [Declaration.repetitionTexts, List.forall_mem_append] at h
  obtain ⟨⟨⟨⟨⟨hparallel, hcount⟩, htemplate⟩, hvars⟩, hitems⟩, hfile⟩ := h
  have hflag : Composed A late (d.parallel.elim (pure true) (Compiling.flag id "parallel")) := by
    refine .elim (.pure _) fun s hs => .flag ?_
    simpa only [hs, Option.bind_some] using hparallel
  have hmax : Composed A late
      (Attempt.optional (Compiling.count id "max_concurrent") d.maxConcurrent) := by
    refine .optionally fun s hs => .count ?_
    simpa only [hs, Option.bind_some] using hcount
  rw [foreachFields_eq]
  exact .bind hflag fun _ => .bind hmax fun _ => .bind (.required htemplate) fun _ =>
    .bind (.values hvars) fun _ => .bind (.optional hitems) fun _ =>
      .bind (.optional hfile) fun _ => .pure _

/-- The fields of a repetition are compiled while its names are bound late. -/
theorem composed_foreachConfig (hnames : A.names d.repetitionRoots)
    (h : ∀ v ∈ d.repetitionTexts, A.text d.repetitionRoots v) :
    Composed A [] (foreachConfig id d) := by
  have hfields : Composed A [] (repeating d.repetitionRoots (foreachFields id d)) :=
    .repeating hnames (composed_foreachFields h)
  rw [foreachConfig]
  cases d.items with
  | none =>
    cases d.itemsFile with
    | none => exact .fail fun h => h
    | some file => exact hfields
  | some items =>
    cases d.itemsFile with
    | none => exact hfields
    | some file => exact .fail fun h => h

theorem composed_branchCondition {gate : Bool}
    (h : ∀ v ∈ if gate then [] else d.condition.toList, A.text late v) :
    Composed A late (branchCondition settings id d gate) := by
  rw [branchCondition]
  cases gate with
  | true => exact .pure _
  | false =>
    rcases hfilter : d.condition.filter fun v => !Text.allBlank v with _ | v
    · exact .fail fun h => h
    · rw [Option.filter_eq_some_iff] at hfilter
      exact .command (h v (by simp [hfilter.1]))

theorem composed_branchFields {gate : Bool}
    (h : ∀ v ∈ (if gate then [] else d.condition.toList) ++ d.promptText.toList ++
      d.workdir.toList ++ d.env.map Prod.snd ++ d.timeout.toList, A.text late v) :
    Composed A late (branchFields settings id d gate) := by
  simp only [List.forall_mem_append] at h
  obtain ⟨⟨⟨⟨hcondition, hprompt⟩, hworkdir⟩, henv⟩, htimeout⟩ := h
  exact .bind (composed_branchCondition hcondition) fun _ => .bind (.optional hprompt) fun _ =>
    .bind (.optional hworkdir) fun _ => .bind (.texts henv) fun _ =>
      .bind (.optional htimeout) fun _ => .pure _

theorem composed_agentOf (hagent : ∀ v ∈ d.agentName.toList, A.text late v) :
    Composed A late (agentOf settings id d) := by
  rw [agentOf]
  cases hname : d.agentName with
  | none => exact .pure _
  | some raw => exact .bind (.text (hagent raw (by simp [hname]))) fun _ => .pure _

theorem composed_agentConfig (hagent : ∀ v ∈ d.agentName.toList, A.text late v)
    (h : ∀ v ∈ d.mode.toList ++ [d.promptText.getD ""], A.text late v) :
    Composed A late (agentConfig settings id d) := by
  rw [List.forall_mem_append, List.forall_mem_singleton] at h
  rw [agentConfig_eq]
  exact .bind (composed_agentOf hagent) fun _ =>
    .bind (.elim (.pure _) fun v hv => .text (h.1 v (by simp [hv]))) fun _ =>
      .bind (.text h.2) fun _ => .pure _

end Configurations

/-! ## Steps and batches -/

/-- The texts of a step, and the names of its repetition, are allowed. -/
structure Step.Within (A : Allowance) (s : Step) : Prop where
  /-- the texts that are substituted -/
  texts : ∀ entry ∈ s.compiledTexts, A.text entry.1 entry.2
  /-- the names that are bound late -/
  names : ∀ c, s.classify? = some c → c.executor = .foreach → A.names s.repetitionRoots

/-- The steps of a batch are allowed, with their ids, at any depth that is compiled. -/
def Batch.Within (A : Allowance) (b : Batch) : Prop :=
  ∀ inner, Relation.ReflTransGen Batch.UnderBranch b inner →
    ∀ s ∈ inner.steps, s.Within A ∧ A.value (inner.fullId s)

namespace Step.Within

variable {A : Allowance} {s : Step} {c : Classification}

theorem agent (h : s.Within A) : ∀ v ∈ s.agentName.toList, A.text [] v := fun v hv =>
  h.texts ([], v) (List.mem_append_left _ (List.mem_map.2 ⟨v, hv, rfl⟩))

/-- The texts of a step that says how it is run, but for the agent. -/
theorem classified (h : s.Within A) (hclass : s.classify? = some c) :
    (∀ v ∈ s.title.toList ++ s.fieldTexts c, A.text [] v) ∧
      (c.executor = .foreach → ∀ v ∈ s.repetitionTexts, A.text s.repetitionRoots v) ∧
      (c.executor = .branch → ∀ o t, s.target? o = some t →
        ∀ v ∈ t.compiledTexts, A.text [] v) := by
  have hall := h.texts
  rw [Step.compiledTexts, hclass] at hall
  refine ⟨fun v hv => ?_, fun hexecutor v hv => ?_, fun hexecutor o t ht v hv => ?_⟩
  · exact hall ([], v) (List.mem_append_right _ (List.mem_append_left _
      (List.mem_map.2 ⟨v, hv, rfl⟩)))
  · refine hall (s.repetitionRoots, v) (List.mem_append_right _ (List.mem_append_right _ ?_))
    rw [hexecutor]
    exact List.mem_map.2 ⟨v, hv, rfl⟩
  · refine hall ([], v) (List.mem_append_right _ (List.mem_append_right _ ?_))
    rw [hexecutor]
    exact List.mem_map.2 ⟨v, List.mem_flatMap.2 ⟨(o, t), Step.mem_targets.2 ht, hv⟩, rfl⟩

end Step.Within

section Steps

variable {A : Allowance} {settings : RunSettings} {id : String} {s : Step}

theorem composed_compileOutcome {name : String} {target : Option (Target Step)}
    (htexts : ∀ t, target = some t → ∀ v ∈ t.compiledTexts, A.text [] v)
    (hinline : ∀ t, target = some t → t.inline ≠ [] →
      Composed A [] (compileInline settings t.inline id)) :
    Composed A [] (compileOutcome settings id name target) := by
  cases target with
  | none =>
    rw [compileOutcome]
    exact .pure _
  | some t =>
    have hsteps : Composed A []
        (if t.inline = [] then pure [] else compileInline settings t.inline id) := by
      by_cases hnil : t.inline = []
      · rw [if_pos hnil]
        exact .pure _
      · rw [if_neg hnil]
        exact hinline t rfl hnil
    have htarget := htexts t rfl
    rw [Target.compiledTexts, List.forall_mem_append] at htarget
    rw [compileOutcome_some]
    exact .bind hsteps fun _ => .bind (.optional htarget.1) fun _ =>
      .bind (.values htarget.2) fun _ => .pure _

/-- A configuration is composed if the outcomes of a branch are. -/
theorem composed_compileConfig {c : Classification} (hclass : s.classify? = some c)
    (h : s.Within A) (houtcomes : c.executor = .branch →
      ∀ o, Composed A [] (compileOutcome settings id o.name (s.target? o))) :
    Composed A [] (compileConfig settings id s c) := by
  have hagent := h.agent
  obtain ⟨hplain, hrepetition, -⟩ := h.classified hclass
  rw [List.forall_mem_append] at hplain
  obtain ⟨-, hfields⟩ := hplain
  rw [Declaration.fieldTexts] at hfields
  rw [compileConfig]
  cases hexecutor : c.executor with
  | shell =>
    rw [hexecutor] at hfields
    exact .bind (composed_shellConfig hfields) fun _ => .pure _
  | spawn =>
    rw [hexecutor] at hfields
    exact .bind (composed_spawnConfig hagent hfields) fun _ => .pure _
  | kill =>
    rw [hexecutor] at hfields
    exact .bind (composed_killConfig hagent hfields) fun _ => .pure _
  | expand =>
    rw [hexecutor] at hfields
    exact .bind (composed_expandConfig hfields) fun _ => .pure _
  | foreach =>
    exact .bind (composed_foreachConfig (h.names c hclass hexecutor) (hrepetition hexecutor))
      fun _ => .pure _
  | agent =>
    rw [hexecutor] at hfields
    exact .bind (composed_agentConfig hagent hfields) fun _ => .pure _
  | branch =>
    rw [hexecutor] at hfields
    have ho := houtcomes hexecutor
    exact .bind (composed_branchFields hfields) fun _ => .bind (ho .onTrue) fun _ =>
      .bind (ho .onFalse) fun _ => .bind (ho .onTimeout) fun _ => .pure _

/-- A step that has been entered is composed if the inline steps of a branch are. -/
theorem composed_compileEntered_of_inline
    (hassignee : ∀ v ∈ settings.defaultAssignee.toList, A.value v) (h : s.Within A)
    (hinline : s.IsBranch → ∀ o t, s.target? o = some t → t.inline ≠ [] →
      Composed A [] (compileInline settings t.inline id)) :
    Composed A [] (compileEntered settings id s) := by
  refine .bind (.nameAgent h.agent hassignee) fun _ => ?_
  rcases hclass : s.classify? with _ | c
  · exact .fail fun h => h
  · obtain ⟨hplain, -, htargets⟩ := h.classified hclass
    rw [List.forall_mem_append] at hplain
    refine .bind (.optional hplain.1) fun _ => .bind ?_ fun _ => .pure _
    refine composed_compileConfig hclass h fun hbranch o => composed_compileOutcome ?_ ?_
    · exact htargets hbranch o
    · exact hinline ⟨c, hclass, hbranch⟩ o

/-- To compile a step is composed if that is, once the step is entered. -/
theorem composed_compileStep_of_entered (hid : A.value id)
    (h : Composed A [] (compileEntered settings id s)) :
    Composed A [] (compileStep settings id s) := by
  rw [compileStep_eq_entered]
  exact .bind (.enter hid) fun _ => h

theorem composed_compileInline_of_members {steps : List Step} {parent : String}
    (h : ∀ s ∈ steps, Composed A [] (compileStep settings (fullId (some parent) s.id) s)) :
    Composed A [] (compileInline settings steps parent) := by
  have hmembers : Composed A [] (compileMembers settings parent (steps.map (·.id)) steps) := by
    rw [compileMembers_eq_each]
    exact .each fun s hs => .bind (h s hs) fun _ => .pure _
  refine .bind (.ofExcept fun e he => ?_) fun _ => .bind hmembers fun _ => .ofExcept fun e he => ?_
  · rw [checkInline] at he
    split at he
    · cases he
      exact fun h => h
    · split at he <;> cases he
      exact fun h => h
  · obtain ⟨path, rfl⟩ := inOrder_eq_error he
    exact fun h => h

/-- A step that has been entered is composed, with the inline steps inside it. -/
theorem composed_compileEntered {b : Batch} (h : b.Within A)
    (hassignee : ∀ v ∈ settings.defaultAssignee.toList, A.value v) (hs : s ∈ b.steps) :
    Composed A [] (compileEntered settings (b.fullId s) s) := by
  -- the batches inside are smaller
  induction hsize : sizeOf b.steps using Nat.strongRecOn generalizing b s with
  | ind size ih =>
    refine composed_compileEntered_of_inline hassignee (h b .refl s hs).1 ?_
    intro hbranch o t ht hinline
    have hunder : b.UnderBranch (b.inside s t) := ⟨s, hs, hbranch, o, t, ht, hinline, rfl⟩
    have hwithin : (b.inside s t).Within A := fun deeper hway => h deeper (hway.head hunder)
    have hlt := hunder.inside.sizeOf_lt
    rw [hsize] at hlt
    refine composed_compileInline_of_members fun i hi => ?_
    exact composed_compileStep_of_entered (hwithin _ .refl i hi).2 (ih _ hlt hwithin hi rfl)

/-- Inline steps are composed, with those inside them. -/
theorem composed_compileInline {steps : List Step} {parent : String}
    (h : Batch.Within A { parent := some parent, steps })
    (hassignee : ∀ v ∈ settings.defaultAssignee.toList, A.value v) :
    Composed A [] (compileInline settings steps parent) :=
  composed_compileInline_of_members fun i hi =>
    composed_compileStep_of_entered (h _ .refl i hi).2 (composed_compileEntered h hassignee hi)

theorem Batch.within_any (b : Batch) : b.Within .any :=
  fun _ _ _ _ => ⟨⟨fun _ _ => trivial, fun _ _ _ => trivial⟩, trivial⟩

end Steps

/-! ## Whatever steps are like -/

section Any

variable (settings : RunSettings) (id name : String)

theorem composed_any_inline (steps : List Step) (parent : String) :
    Composed .any [] (compileInline settings steps parent) :=
  composed_compileInline (Batch.within_any _) fun _ _ => trivial

/-- Whatever a step is like, it is composed once it is entered. -/
theorem composed_any_entered (s : Step) : Composed .any [] (compileEntered settings id s) :=
  composed_compileEntered_of_inline (fun _ _ => trivial)
    ⟨fun _ _ => trivial, fun _ _ _ => trivial⟩
    fun _ _ t _ _ => composed_any_inline settings t.inline id

theorem composed_any_step (s : Step) : Composed .any [] (compileStep settings id s) :=
  composed_compileStep_of_entered trivial (composed_any_entered settings id s)

theorem composed_any_outcome (target : Option (Target Step)) :
    Composed .any [] (compileOutcome settings id name target) :=
  composed_compileOutcome (fun _ _ _ _ => trivial) fun t _ _ =>
    composed_any_inline settings t.inline id

theorem composed_any_member (parent : String) (batch : List String) (s : Step) :
    Composed .any [] (compileMember settings parent batch s) :=
  .bind (composed_any_step settings _ s) fun _ => .pure _

end Any

end WorkflowCompiler
