import WorkflowCompiler.Workflow.Decoding
import WorkflowCompiler.Workflow.Encoding

/-!
# Workflows as JSON values

A workflow comes back from the JSON value that it is turned into. What was left out of the value is
what a reader takes for a field that is missing, and every kind of value comes back as the kind it
was. Two things have no JSON value of their own, and are turned into the `null` of a field that is
absent: a default that is `null`, and a setting that is an infinity or a NaN. The text of a JSON
value plays no part here: neither its printing nor its reading is gone through.

* `optionalIn?`, `orDefaultIn?` — what a reader makes of the value that stands under a name;
* `optionalIn?_fieldOf`, `orDefaultIn?_tableField`, `orDefaultIn?_textsField` — one law for each way
  in which a field is written, for all fields that are written so;
* `Step.ofDatum?_toJson` — steps, with their inline steps at any depth;
* `Workflow.ofDatum?_toJson_of_writable` — workflows.
-/

namespace WorkflowCompiler

open Datum (optional? orDefault? required? tableOf?)

variable {α : Type}

/-! ## Reading the value under a name -/

/-- Reads a field that may be missing or `null` from the value under its name. -/
def optionalIn? (read : Datum → Option α) : Option Json → Option (Option α)
  | none => some none
  | some .null => some none
  | some j => (read j.toDatum).map some

/-- Reads a field that may be missing, and then has a default, from the value under its name. -/
def orDefaultIn? (default : α) (read : Datum → Option α) (value : Option Json) : Option α :=
  value.elim (some default) fun j => read j.toDatum

@[simp] theorem orDefaultIn?_some (default : α) (read : Datum → Option α) (j : Json) :
    orDefaultIn? default read (some j) = read j.toDatum := rfl

@[simp] theorem optional?_toDatumFields (fields : Fields Json) (name : String)
    (read : Datum → Option α) :
    optional? (Json.toDatumFields fields) name read = optionalIn? read (fields.get? name) := by
  rw [optional?, Json.get?_toDatumFields]
  cases fields.get? name with
  | none => rfl
  | some j => cases j <;> rfl

@[simp] theorem orDefault?_toDatumFields (fields : Fields Json) (name : String) (default : α)
    (read : Datum → Option α) :
    orDefault? (Json.toDatumFields fields) name default read =
      orDefaultIn? default read (fields.get? name) := by
  rw [orDefault?, Json.get?_toDatumFields]
  cases fields.get? name <;> rfl

@[simp] theorem required?_toDatumFields (fields : Fields Json) (name : String)
    (read : Datum → Option α) :
    required? (Json.toDatumFields fields) name read =
      (fields.get? name).bind fun j => read j.toDatum := by
  rw [required?, Json.get?_toDatumFields, Option.bind_map]
  rfl

/-- The target of an outcome is a field like others. -/
@[simp] theorem outcomeNamed?_eq (name : String) (fields : Fields Datum) :
    outcomeNamed? name fields = orDefault? fields name none outcome? := by
  induction fields with
  | nil => rfl
  | cons entry rest ih =>
    rw [outcomeNamed?, ih, orDefault?, orDefault?, Fields.get?_cons]
    split <;> rfl

/-- So are inline steps. -/
@[simp] theorem inlineNamed?_eq (fields : Fields Datum) :
    inlineNamed? fields = orDefault? fields "inline" [] stepList? := by
  induction fields with
  | nil => rfl
  | cons entry rest ih =>
    rw [inlineNamed?, ih, orDefault?, orDefault?, Fields.get?_cons]
    split <;> rfl

/-! ## Fields that were written -/

variable {write : α → Json} {read : Datum → Option α} {key : String} (name : String)

/-- A value comes back from what it is written as, and is not written as `null`. -/
def ComesBack (write : α → Json) (read : Datum → Option α) (a : α) : Prop :=
  write a ≠ .null ∧ read (write a).toDatum = some a

@[simp] theorem get?_fieldOf_of_ne {name : String} (h : name ≠ key) (value : Option α) :
    Fields.get? (fieldOf write name value) key = none := by
  cases value <;> simp [fieldOf, Fields.get?_cons, h]

@[simp] theorem get?_tableField_of_ne {name : String} (h : name ≠ key) (fields : Fields α) :
    Fields.get? (tableField write name fields) key = none := by
  cases fields <;> simp [tableField, Fields.get?_cons, h]

@[simp] theorem get?_textsField_of_ne {name : String} (h : name ≠ key) (texts : List String) :
    Fields.get? (textsField name texts) key = none := by
  cases texts <;> simp [textsField, Fields.get?_cons, h]

@[simp] theorem get?_outcomeField_of_ne {name : String} (h : name ≠ key)
    (target : Option (Target Step)) :
    Fields.get? (outcomeField name target) key = none := by
  cases target <;> simp [outcomeField, Fields.get?_cons, h]

@[simp] theorem get?_inlineField_of_ne (h : "inline" ≠ key) (inline : List Step) :
    Fields.get? (inlineField inline) key = none := by
  cases inline <;> simp [inlineField, Fields.get?_cons, h]

/-- A field that was left out or written comes back. -/
@[simp] theorem optionalIn?_fieldOf {value : Option α} (h : ∀ a ∈ value, ComesBack write read a) :
    optionalIn? read (Fields.get? (fieldOf write name value) name) = some value := by
  cases value with
  | none => rfl
  | some a =>
    obtain ⟨hne, hread⟩ := h a rfl
    rw [fieldOf, Fields.get?_cons, if_pos rfl]
    cases hwrite : write a with
    | null => exact absurd hwrite hne
    | _ =>
      rw [hwrite] at hread
      rw [optionalIn?, hread, Option.map_some]
      exact Json.noConfusion

theorem mapM_toDatumFields {fields : Fields α}
    (h : ∀ entry ∈ fields, read (write entry.2).toDatum = some entry.2) :
    (Json.toDatumFields (fields.mapValues write)).mapM
      (fun entry => (read entry.2).map (entry.1, ·)) = some fields := by
  induction fields with
  | nil => rfl
  | cons entry rest ih =>
    rw [List.forall_mem_cons] at h
    simp only [Fields.mapValues, List.map_cons, Json.toDatumFields, List.mapM_cons] at ih ⊢
    rw [h.1, ih h.2]
    rfl

/-- A table comes back when its values do. -/
theorem orDefaultIn?_tableField {fields : Fields α}
    (h : ∀ entry ∈ fields, read (write entry.2).toDatum = some entry.2) :
    orDefaultIn? [] (tableOf? read) (Fields.get? (tableField write name fields) name) =
      some fields := by
  cases fields with
  | nil => rfl
  | cons entry rest =>
    have hwritten : tableField write name (entry :: rest) =
        [(name, .obj (Fields.mapValues write (entry :: rest)))] := rfl
    rw [hwritten, Fields.get?_cons, if_pos rfl]
    exact mapM_toDatumFields h

theorem mapM_toDatumItems (texts : List String) :
    (Json.toDatumItems (texts.map .str)).mapM Datum.text? = some texts := by
  induction texts with
  | nil => rfl
  | cons text rest ih =>
    rw [List.map_cons, Json.toDatumItems, List.mapM_cons, ih]
    rfl

theorem texts?_toDatum (texts : List String) :
    Datum.texts? (Json.arr (texts.map .str)).toDatum = some texts :=
  mapM_toDatumItems texts

/-- A list of texts comes back. -/
@[simp] theorem orDefaultIn?_textsField (texts : List String) :
    orDefaultIn? [] Datum.texts? (Fields.get? (textsField name texts) name) = some texts := by
  cases texts with
  | nil => rfl
  | cons text rest =>
    have hwritten : textsField name (text :: rest) = [(name, .arr ((text :: rest).map .str))] := rfl
    rw [hwritten, Fields.get?_cons, if_pos rfl]
    exact texts?_toDatum (text :: rest)

/-! ## Values of a field -/

@[simp] theorem text?_toDatum (text : String) : (Json.str text).toDatum.text? = some text := rfl

@[simp] theorem bool?_toDatum (b : Bool) : (Json.bool b).toDatum.bool? = some b := rfl

@[simp] theorem comesBack_text (text : String) : ComesBack .str Datum.text? text := ⟨nofun, rfl⟩

@[simp] theorem comesBack_flag (b : Bool) : ComesBack .bool Datum.bool? b := ⟨nofun, rfl⟩

@[simp] theorem comesBack_texts (texts : List String) :
    ComesBack (fun texts => .arr (texts.map .str)) Datum.texts? texts :=
  ⟨nofun, texts?_toDatum texts⟩

@[simp] theorem comesBack_type (t : VariableType) :
    ComesBack (fun t => .str t.name) (Datum.choice? .json VariableType.read?) t :=
  ⟨nofun, VariableType.read?_name t⟩

theorem comesBack_json {j : Json} (h : j ≠ .null) : ComesBack id (fun d => some d.toJson) j :=
  ⟨h, congrArg some j.toJson_toDatum⟩

/-- A setting that is a number is neither infinite nor a NaN. -/
def Setting.IsFinite (s : Setting) : Prop := ∀ x, s = .number x → x.isFinite = true

theorem fitsSigned_toInt (n : Int64) : Integer.fitsSigned n.toInt = true := by
  have hle := Int64.le_toInt n
  have hlt := Int64.toInt_lt n
  have hspan : (Integer.signedSpan : Int) = 2 ^ 63 := rfl
  rw [Integer.fitsSigned, hspan, Bool.and_eq_true]
  exact ⟨decide_eq_true hle, decide_eq_true hlt⟩

/-- A setting comes back as the kind of value that it was. -/
theorem comesBack_setting {s : Setting} (h : s.IsFinite) :
    ComesBack Setting.toJson Setting.ofDatum? s := by
  cases s with
  | flag b => exact ⟨nofun, rfl⟩
  | count n =>
    refine ⟨nofun, ?_⟩
    rw [Setting.toJson, Json.toDatum, Setting.ofDatum?, if_pos (fitsSigned_toInt n),
      Int64.ofInt_toInt]
  | number x =>
    rw [ComesBack, Setting.toJson, Json.ofBinary64_of_isFinite (h x rfl)]
    exact ⟨nofun, rfl⟩
  | text s => exact ⟨nofun, rfl⟩

@[simp] theorem needsOfDatum?_toDatum (needs : List String) :
    needsOfDatum? (Json.arr (needs.map .str)).toDatum = some needs := by
  rw [needsOfDatum?, Json.toJson_toDatum]
  induction needs with
  | nil => rfl
  | cons need rest ih =>
    simp only [List.map_cons, List.mapM_cons] at ih ⊢
    rw [ih]
    rfl

@[simp] theorem orDefaultIn?_values (fields : Fields Json) :
    orDefaultIn? [] Datum.values? (Fields.get? (tableField id name fields) name) = some fields :=
  orDefaultIn?_tableField name fun entry _ => congrArg some entry.2.toJson_toDatum

@[simp] theorem orDefaultIn?_env (fields : Fields String) :
    orDefaultIn? [] (tableOf? Datum.text?) (Fields.get? (tableField .str name fields) name) =
      some fields :=
  orDefaultIn?_tableField name fun _ _ => rfl

/-- What is said about an output comes back. -/
theorem OutputDeclaration.ofDatum?_toJson (o : OutputDeclaration) :
    OutputDeclaration.ofDatum? o.toJson.toDatum = some o := by
  rw [OutputDeclaration.toJson, OutputDeclaration.ofDatum?, Json.toDatum, Datum.record?]
  simp [Fields.get?_append, Fields.get?_cons]

@[simp] theorem orDefaultIn?_outputs (fields : Fields OutputDeclaration) :
    orDefaultIn? [] (tableOf? OutputDeclaration.ofDatum?)
      (Fields.get? (tableField OutputDeclaration.toJson name fields) name) = some fields :=
  orDefaultIn?_tableField name fun entry _ => entry.2.ofDatum?_toJson

/-! ## Steps -/

/-- A step is another one or stands in it, as an inline step at any depth. -/
inductive Step.Contains : Step → Step → Prop
  | self (s : Step) : Contains s s
  | inline {s i inner : Step} {o : Outcome} {t : Target Step} (ht : s.target? o = some t)
      (hi : i ∈ t.inline) (h : Contains i inner) : Contains s inner

/-- The settings of a step are neither infinite nor NaNs. -/
structure Declaration.FiniteSettings (d : Declaration) : Prop where
  /-- whether repetitions run side by side -/
  parallel : ∀ s ∈ d.parallel, s.IsFinite
  /-- how many of them -/
  maxConcurrent : ∀ s ∈ d.maxConcurrent, s.IsFinite

/-- A step has a JSON form if its settings have, and those of its inline steps. -/
def Step.Writable (s : Step) : Prop := ∀ i, s.Contains i → i.FiniteSettings

theorem Step.writable_iff {s : Step} :
    s.Writable ↔ s.FiniteSettings ∧
      ∀ o t, s.target? o = some t → ∀ i ∈ t.inline, i.Writable := by
  constructor
  · intro h
    exact ⟨h s (.self s), fun o t ht i hi inner hcontains => h inner (.inline ht hi hcontains)⟩
  · rintro ⟨hsettings, hinline⟩ inner hcontains
    cases hcontains with
    | self => exact hsettings
    | inline ht hi hcontains => exact hinline _ _ ht _ hi _ hcontains

/-- A step comes back when the targets of its outcomes do. -/
theorem Step.ofDatum?_toJson_of_outcomes {s : Step} (h : s.FiniteSettings)
    (htrue : orDefaultIn? none outcome?
      (Fields.get? (outcomeField "on_true" s.onTrue) "on_true") = some s.onTrue)
    (hfalse : orDefaultIn? none outcome?
      (Fields.get? (outcomeField "on_false" s.onFalse) "on_false") = some s.onFalse)
    (htimeout : orDefaultIn? none outcome?
      (Fields.get? (outcomeField "on_timeout" s.onTimeout) "on_timeout") = some s.onTimeout) :
    Step.ofDatum? s.toJson.toDatum = some s := by
  have hparallel (name : String) := optionalIn?_fieldOf name fun setting hs =>
    comesBack_setting (h.parallel setting hs)
  have hmax (name : String) := optionalIn?_fieldOf name fun setting hs =>
    comesBack_setting (h.maxConcurrent setting hs)
  obtain ⟨d, onTrue, onFalse, onTimeout⟩ := s
  rw [Step.toJson, Json.toDatum, Step.ofDatum?, Declaration.ofFields?]
  simp [Fields.get?_append, Fields.get?_cons, hparallel, hmax, htrue, hfalse, htimeout]

mutual

theorem Step.ofDatum?_toJson : ∀ s : Step, s.Writable → Step.ofDatum? s.toJson.toDatum = some s
  | ⟨_, onTrue, onFalse, onTimeout⟩, h =>
    have ⟨hsettings, hinline⟩ := Step.writable_iff.1 h
    Step.ofDatum?_toJson_of_outcomes hsettings
      (orDefaultIn?_outcomeField "on_true" onTrue (hinline .onTrue))
      (orDefaultIn?_outcomeField "on_false" onFalse (hinline .onFalse))
      (orDefaultIn?_outcomeField "on_timeout" onTimeout (hinline .onTimeout))

theorem orDefaultIn?_outcomeField : ∀ (name : String) (target : Option (Target Step)),
    (∀ t, target = some t → ∀ i ∈ t.inline, i.Writable) →
    orDefaultIn? none outcome? (Fields.get? (outcomeField name target) name) = some target
  | name, none, _ => rfl
  | name, some ⟨template, vars, inline⟩, h => by
    have hinline := orDefaultIn?_inlineField inline (h _ rfl)
    rw [outcomeField, Fields.get?_cons, if_pos rfl, orDefaultIn?_some, Json.toDatum, outcome?]
    simp [Target.ofFields?, Fields.get?_append, hinline]

theorem orDefaultIn?_inlineField : ∀ inline : List Step, (∀ i ∈ inline, i.Writable) →
    orDefaultIn? [] stepList? (Fields.get? (inlineField inline) "inline") = some inline
  | [], _ => rfl
  | step :: rest, h => by
    rw [List.forall_mem_cons] at h
    rw [inlineField, Fields.get?_cons, if_pos rfl, orDefaultIn?_some, Json.toDatum, stepList?,
      Json.toDatumItems, steps?, Step.ofDatum?_toJson step h.1, steps?_stepsToJson rest h.2]
    rfl

theorem steps?_stepsToJson : ∀ steps : List Step, (∀ i ∈ steps, i.Writable) →
    steps? (Json.toDatumItems (stepsToJson steps)) = some steps
  | [], _ => rfl
  | step :: rest, h => by
    rw [List.forall_mem_cons] at h
    rw [stepsToJson, Json.toDatumItems, steps?, Step.ofDatum?_toJson step h.1,
      steps?_stepsToJson rest h.2]
    rfl

end

/-! ## Workflows -/

/-- A variable comes back, if its default has a form of its own. -/
theorem Variable.ofDatum?_toJson {v : Variable} (h : v.default ≠ some .null) :
    Variable.ofDatum? .json v.toJson.toDatum = some v := by
  have hdefault (name : String) := optionalIn?_fieldOf name fun j hj =>
    comesBack_json fun hnull => h (hnull ▸ hj)
  rw [Variable.toJson, Variable.ofDatum?, Json.toDatum, Datum.record?]
  simp [Fields.get?_append, Fields.get?_cons, hdefault]

example : (Variable.ofDatum? .json (Variable.toJson { default := some .null }).toDatum).map
    Variable.default = some none := rfl

/-- A workflow has a JSON form if its variables and steps have. -/
structure Workflow.Writable (w : Workflow) : Prop where
  /-- no default is `null` -/
  default_ne_null : ∀ entry ∈ w.vars, entry.2.default ≠ some .null
  /-- no setting, of a step at any depth, is an infinity or a NaN -/
  settings_finite : ∀ s ∈ w.steps, ∀ i, s.Contains i → i.FiniteSettings

/-- A workflow is what is read from the JSON value that it is turned into, if it has one. -/
theorem Workflow.ofDatum?_toJson_of_writable {w : Workflow} (h : w.Writable) :
    Workflow.ofDatum? .json w.toJson.toDatum = some w := by
  have hvars := orDefaultIn?_tableField "variables" fun entry hentry =>
    Variable.ofDatum?_toJson (h.default_ne_null entry hentry)
  have hsteps : stepList? (Json.arr (stepsToJson w.steps)).toDatum = some w.steps :=
    steps?_stepsToJson w.steps h.settings_finite
  rw [Workflow.toJson, Workflow.ofDatum?, Json.toDatum, Datum.record?]
  simp [Fields.get?_append, Fields.get?_cons, hvars, hsteps]

/-- A step for each of some targets, with a setting that is a number. -/
def nightlyShip : Step where
  id := "ship"
  executor := some "foreach"
  needs := ["check", "fetch"]
  template := some "ship"
  items := some "{{targets}}"
  parallel := some (.number ⟨0x4004000000000000⟩)
  maxConcurrent := some (.count (-4))

/-- A branch with such a step among its inline steps, and an outcome of which nothing is said. -/
def nightlyCheck : Step where
  id := "check"
  legacyType := some "condition"
  condition := some "make test"
  env := [("LEVEL", "{{level}}")]
  vars := [("notes", .null)]
  outputs := [("report", { source := some "stdout", required := true })]
  onTrue := some { inline := [nightlyShip] }
  onFalse := some {}

/-- A workflow of variables and steps of many kinds. -/
def nightlyWorkflow : Workflow where
  name := "nightly"
  vars := [("level", { default := some (.int 3), type := some .int, allowed := some [] }),
    ("targets", { required := true })]
  steps := [nightlyCheck]
  internal := true

theorem nightlyWorkflow_ofDatum? :
    nightlyWorkflow.Writable ∧
      Workflow.ofDatum? .json nightlyWorkflow.toJson.toDatum = some nightlyWorkflow := by
  have hship : nightlyShip.Writable := by
    refine Step.writable_iff.2 ⟨⟨?_, ?_⟩, fun o t ht => ?_⟩
    · rintro _ ⟨⟩ x ⟨⟩
      decide
    · rintro _ ⟨⟩ x ⟨⟩
    · cases o <;> cases ht
  have hcheck : nightlyCheck.Writable := by
    refine Step.writable_iff.2 ⟨⟨nofun, nofun⟩, fun o t ht i hi => ?_⟩
    cases o with
    | onTrue =>
      cases ht
      rw [List.mem_singleton.1 hi]
      exact hship
    | onFalse =>
      cases ht
      cases hi
    | onTimeout => cases ht
  have h : nightlyWorkflow.Writable := by
    refine ⟨?_, fun s hs => ?_⟩
    · simp [nightlyWorkflow]
    · rw [List.mem_singleton.1 hs]
      exact hcheck
  exact ⟨h, Workflow.ofDatum?_toJson_of_writable h⟩

end WorkflowCompiler
