import WorkflowCompiler.Proofs.Document.Workflows

/-!
# The two shapes of a document

What a document says about a single workflow can be said in the table of a workflow as well
(`Document.regrouped`): the fields of its `meta` table beside its variables and steps. Both are read
field by field, and no field depends on another one, so the two are read alike, but for the version,
which only the first shape has (`Document.readSingle?_eq`). A document of either shape is then the
same module (`Module.ofTable_eq_ok_iff_regrouped`).
-/

namespace WorkflowCompiler

open Datum (optional? orDefault?)

/-! ## Some fields of a table -/

/-- The fields of a table that have one of the names. -/
def Fields.restrict {α : Type} (fields : Fields α) (names : List String) : Fields α :=
  fields.filter fun entry => entry.1 ∈ names

theorem Fields.get?_restrict {α : Type} (fields : Fields α) (names : List String) (key : String) :
    (fields.restrict names).get? key = if key ∈ names then fields.get? key else none := by
  induction fields with
  | nil => exact (ite_self _).symm
  | cons entry rest ih =>
    obtain ⟨name, value⟩ := entry
    rw [restrict] at ih ⊢
    by_cases hname : name ∈ names
    · rw [List.filter_cons_of_pos (by exact decide_eq_true hname), get?_cons, get?_cons, ih]
      by_cases heq : name = key
      · subst heq
        simp only [if_pos, hname]
      · simp only [if_neg heq]
    · rw [List.filter_cons_of_neg (by simp [hname]), ih, get?_cons]
      by_cases heq : name = key
      · subst heq
        simp only [if_neg hname]
      · simp only [if_neg heq]

namespace Datum

variable {α : Type} {fields other : Fields Datum} {name : String}

theorem optional?_congr (h : fields.get? name = other.get? name) (read : Datum → Option α) :
    optional? fields name read = optional? other name read := by
  rw [optional?, optional?, h]

theorem orDefault?_congr (h : fields.get? name = other.get? name) (default : α)
    (read : Datum → Option α) :
    orDefault? fields name default read = orDefault? other name default read := by
  rw [orDefault?, orDefault?, h]

theorem optional?_of_none (h : fields.get? name = none) (read : Datum → Option α) :
    optional? fields name read = some none := by
  rw [optional?, h]

theorem orDefault?_of_none (h : fields.get? name = none) (default : α)
    (read : Datum → Option α) : orDefault? fields name default read = some default := by
  rw [orDefault?, h]

end Datum

/-- A workflow has the name that its table gives it. -/
theorem Workflow.name_of_ofDatum? {f : Datum.Format} {fields : Fields Datum} {name : String}
    {w : Workflow} (h : Workflow.ofDatum? f (.table fields) = some w)
    (hname : fields.get? "name" = some (.text name)) : w.name = name := by
  simp only [Workflow.ofDatum?, Datum.record?, Option.bind_eq_bind, Option.bind_some,
    Option.bind_eq_some_iff, Option.pure_def, Option.some.injEq] at h
  obtain ⟨name', hread, _, -, _, -, _, -, _, -, _, -, _, -, rfl⟩ := h
  rw [orDefault?, hname] at hread
  exact (Option.some.inj hread).symm

namespace Document

/-! ## One workflow in both shapes -/

/-- The fields of a single workflow as the fields of a workflow. -/
def workflowFields (about table : Fields Datum) : Fields Datum :=
  about.restrict ["name", "description", "ephemeral"] ++ table.restrict ["variables", "steps"]

/-- A document of a single workflow, described by `about`, as a document with the table of one
workflow. -/
def regrouped (about table : Fields Datum) : Fields Datum :=
  [(Module.entryKey, .table (workflowFields about table))]

/-- The version is missing, or `null`, or a text. -/
def VersionReads (about : Fields Datum) : Prop :=
  ∀ d, about.get? "version" = some d → d = .null ∨ ∃ version, d = .text version

variable {table about : Fields Datum}

theorem versionReads_iff : VersionReads about ↔
    ∃ version, optional? about "version" Datum.text? = some version := by
  rw [VersionReads, optional?]
  rcases about.get? "version" with _ | d
  · simp
  · cases d <;> simp [Datum.text?]

theorem get?_workflowFields (about table : Fields Datum) (key : String) :
    (workflowFields about table).get? key =
      if key ∈ ["name", "description", "ephemeral"] then about.get? key
      else if key ∈ ["variables", "steps"] then table.get? key else none := by
  rw [workflowFields, Fields.get?_append, Fields.get?_restrict, Fields.get?_restrict]
  split
  · rename_i hkey
    -- no name is in both lists
    have htable : key ∉ ["variables", "steps"] := by
      intro hmem
      simp only [List.mem_cons, List.not_mem_nil, or_false] at hkey hmem
      rcases hmem with rfl | rfl <;> simp at hkey
    rw [if_neg htable, Option.or_none]
  · exact Option.none_or

/-- A single workflow is read as the workflow of its fields, if its version can be read. -/
theorem readSingle?_eq (hmeta : table.get? "meta" = some (.table about)) :
    readSingle? table = (optional? about "version" Datum.text?).bind fun _ =>
      Workflow.ofDatum? .toml (.table (workflowFields about table)) := by
  have hget := get?_workflowFields about table
  have hname : (workflowFields about table).get? "name" = about.get? "name" := hget "name"
  have hdescription : (workflowFields about table).get? "description" =
      about.get? "description" := hget "description"
  have hephemeral : (workflowFields about table).get? "ephemeral" = about.get? "ephemeral" :=
    hget "ephemeral"
  have hvars : (workflowFields about table).get? "variables" = table.get? "variables" :=
    hget "variables"
  have hsteps : (workflowFields about table).get? "steps" = table.get? "steps" := hget "steps"
  have hinternal : (workflowFields about table).get? "internal" = none := hget "internal"
  have hhooks : (workflowFields about table).get? "hooks_to" = none := hget "hooks_to"
  simp only [readSingle?, About.ofDatum?, Workflow.ofDatum?, Datum.required?, Datum.record?, hmeta,
    Datum.orDefault?_congr hname, Datum.optional?_congr hdescription,
    Datum.orDefault?_congr hephemeral, Datum.orDefault?_congr hvars, Datum.orDefault?_congr hsteps,
    Datum.orDefault?_of_none hinternal, Datum.optional?_of_none hhooks, Option.bind_eq_bind,
    Option.bind_some]
  -- the fields are read in another order
  cases orDefault? about "name" "" Datum.text? <;>
    cases optional? about "description" Datum.text? <;>
    cases optional? about "version" Datum.text? <;>
    cases orDefault? about "ephemeral" false Datum.bool? <;>
    cases orDefault? table "variables" [] (Datum.tableOf? (Variable.ofDatum? .toml)) <;>
    cases orDefault? table "steps" [] stepList? <;> rfl

end Document

/-! ## Both shapes as modules -/

namespace Module

open Document

variable {table about fields : Fields Datum} {name : String} {steps : List Datum} {m : Module}

theorem ofTable_of_meta (hmeta : table.get? "meta" = some (.table about)) :
    ofTable table = match readSingle? table with
      | some w => .ok (.single w)
      | none => .error .malformed := by
  have hhas : table.has "meta" = true := by rw [Fields.has, hmeta, Option.isSome_some]
  rw [ofTable, Document.ofTable, if_pos hhas]
  cases readSingle? table <;> rfl

/-- A document with one table, of a workflow with a name. -/
theorem ofTable_entry (hsteps : fields.get? "steps" = some (.list steps))
    (hname : fields.get? "name" = some (.text name)) (hblank : Text.allBlank name = false) :
    ofTable [(entryKey, .table fields)] = match Workflow.ofDatum? .toml (.table fields) with
      | some w => .ok (.single w)
      | none => .error (.malformedWorkflow entryKey) := by
  have htable : isWorkflowTable (.table fields) = true :=
    isWorkflowTable_iff.2 ⟨fields, steps, rfl, hsteps⟩
  rw [ofTable_eq rfl, readWorkflows, if_pos htable, readWorkflow]
  rcases hw : Workflow.ofDatum? .toml (.table fields) with _ | w
  · rfl
  · have hnamed : Text.allBlank w.name = false := by
      rw [Workflow.name_of_ofDatum? hw hname]
      exact hblank
    simp only [hnamed]
    rfl

/-- Both shapes of a document agree. What a document says about a single workflow with a name can be
said in the table of a workflow as well, and it is the same module: the one is read exactly if the
other is, unless the version, which has no place in the other, is not a text. -/
theorem ofTable_eq_ok_iff_regrouped (hmeta : table.get? "meta" = some (.table about))
    (hsteps : table.get? "steps" = some (.list steps))
    (hname : about.get? "name" = some (.text name)) (hblank : Text.allBlank name = false) :
    ofTable table = .ok m ↔ VersionReads about ∧ ofTable (regrouped about table) = .ok m := by
  have hsteps' : (workflowFields about table).get? "steps" = some (.list steps) :=
    (get?_workflowFields about table "steps").trans hsteps
  have hname' : (workflowFields about table).get? "name" = some (.text name) :=
    (get?_workflowFields about table "name").trans hname
  rw [ofTable_of_meta hmeta, readSingle?_eq hmeta, versionReads_iff, regrouped,
    ofTable_entry hsteps' hname' hblank]
  rcases optional? about "version" Datum.text? with _ | version
  · simp
  · rw [Option.bind_some]
    cases Workflow.ofDatum? .toml (.table (workflowFields about table)) <;> simp

/-- What a document says about a nightly build. -/
def nightlyAbout : Fields Datum :=
  [("description", .text "Builds everything"), ("ephemeral", .bool true),
    ("name", .text "nightly"), ("version", .text "2.1")]

/-- A document of a nightly build, with a variable and a step. -/
def nightlyTable : Fields Datum :=
  [("meta", .table nightlyAbout),
    ("steps", .list [.table [("command", .text "make"), ("id", .text "build")]]),
    ("variables", .table [("target", .table [("default", .text "all")])])]

/-- The nightly build is the same module in both shapes. -/
theorem nightlyTable_regrouped :
    ∃ w, ofTable nightlyTable = .ok (.single w) ∧
      ofTable (regrouped nightlyAbout nightlyTable) = .ok (.single w) := by
  have hread : ∃ w, ofTable nightlyTable = .ok (.single w) := ⟨_, rfl⟩
  obtain ⟨w, hw⟩ := hread
  have hmeta : nightlyTable.get? "meta" = some (.table nightlyAbout) := rfl
  have hboth := (ofTable_eq_ok_iff_regrouped hmeta rfl rfl (by decide)).1 hw
  exact ⟨w, hw, hboth.2⟩

/-- What a document says about a nightly build with a number for its version. -/
def numberedAbout : Fields Datum := [("name", .text "nightly"), ("version", .int 3)]

/-- A document of that build, without steps. -/
def numberedTable : Fields Datum := [("meta", .table numberedAbout), ("steps", .list [])]

/-- The version is read in the first shape and passed over in the other. -/
theorem numberedTable_not_regrouped :
    numberedTable.get? "meta" = some (.table numberedAbout) ∧
    numberedTable.get? "steps" = some (.list []) ∧
    numberedAbout.get? "name" = some (.text "nightly") ∧ Text.allBlank "nightly" = false ∧
    ofTable numberedTable = .error .malformed ∧
    ofTable (regrouped numberedAbout numberedTable) = .ok (.single { name := "nightly" }) :=
  ⟨rfl, rfl, rfl, by decide, rfl, rfl⟩

end Module

end WorkflowCompiler
