import Mathlib.Data.List.Forall2
import Mathlib.Data.List.Sort
import WorkflowCompiler.Document
import WorkflowCompiler.Proofs.Text.ByteOrder

/-!
# The workflows of a document

Of a document of several workflows only the tables with a list of steps count
(`Document.workflowEntries`). They are read in the order of their keys, up to the first that has
the wrong shape (`Document.readWorkflows_cases`), so the result is settled by these entries alone:
whatever else a document says, it is the same module or the same error (`Module.ofTable_workflows`).
-/

namespace WorkflowCompiler

open List (Forall₂)

/-- Reads a module from the table of its document. -/
def Module.ofTable (table : Fields Datum) : Except DocumentError Module :=
  (Document.ofTable table).map Document.toModule

namespace Document

/-- The value is a table with a list of steps. -/
def HoldsSteps (d : Datum) : Prop :=
  ∃ fields items, d = .table fields ∧ Fields.get? fields "steps" = some (.list items)

theorem isWorkflowTable_iff {d : Datum} : isWorkflowTable d = true ↔ HoldsSteps d := by
  constructor
  · intro h
    unfold isWorkflowTable at h
    split at h
    · split at h
      · exact ⟨_, _, rfl, ‹_›⟩
      · cases h
    · cases h
  · rintro ⟨fields, items, rfl, hsteps⟩
    simp only [isWorkflowTable, hsteps]

/-- The entries of a table that describe workflows. -/
def workflowEntries (table : Fields Datum) : Fields Datum :=
  table.filter fun entry => isWorkflowTable entry.2

/-- What an entry is read as: a workflow under the same key, which is named after the key if it has
no name of its own. -/
def ReadAs (entry : String × Datum) (named : String × Workflow) : Prop :=
  named.1 = entry.1 ∧ ∃ w, Workflow.ofDatum? .toml entry.2 = some w ∧
    named.2 = if Text.allBlank w.name then { w with name := entry.1 } else w

variable {table other : Fields Datum} {workflows : Fields Workflow} {key : String} {d : Datum}

theorem workflowEntries_cons_of_pos (h : isWorkflowTable d = true) :
    workflowEntries ((key, d) :: table) = (key, d) :: workflowEntries table :=
  List.filter_cons_of_pos h

theorem workflowEntries_cons_of_neg (h : ¬ isWorkflowTable d = true) :
    workflowEntries ((key, d) :: table) = workflowEntries table :=
  List.filter_cons_of_neg h

theorem sorted_workflowEntries (h : table.Sorted) : (workflowEntries table).Sorted :=
  List.Pairwise.filter _ h

theorem get?_workflowEntries (hsorted : table.Sorted) :
    (workflowEntries table).get? key = some d ↔ table.get? key = some d ∧ HoldsSteps d := by
  rw [(sorted_workflowEntries hsorted).get?_eq_some_iff, hsorted.get?_eq_some_iff,
    workflowEntries, List.mem_filter, isWorkflowTable_iff]

/-- Two tables that bind the same keys to tables with steps have the same workflows. -/
theorem workflowEntries_eq (hsorted : table.Sorted) (hother : other.Sorted)
    (h : ∀ key d, HoldsSteps d → (table.get? key = some d ↔ other.get? key = some d)) :
    workflowEntries table = workflowEntries other := by
  have hirrefl : Std.Irrefl fun a b : String × Datum => a.1 < b.1 :=
    ⟨fun a => String.lt_irrefl a.1⟩
  have hantisymm : Std.Antisymm fun a b : String × Datum => a.1 < b.1 :=
    ⟨fun a b hlt hgt => absurd hgt (String.lt_asymm hlt)⟩
  refine List.Pairwise.eq_of_mem_iff (sorted_workflowEntries hsorted)
    (sorted_workflowEntries hother) fun entry => ?_
  obtain ⟨key, d⟩ := entry
  rw [workflowEntries, workflowEntries, List.mem_filter, List.mem_filter, isWorkflowTable_iff,
    and_congr_left_iff]
  intro hd
  rw [← hsorted.get?_eq_some_iff, ← hother.get?_eq_some_iff, h key d hd]

/-! ## Reading the entries -/

/-- All entries that describe workflows are read, or the first one that cannot be read is named. -/
theorem readWorkflows_cases (table : Fields Datum) :
    (∃ workflows, readWorkflows table = .ok workflows ∧
      Forall₂ ReadAs (workflowEntries table) workflows) ∨
    ∃ before key d after, workflowEntries table = before ++ (key, d) :: after ∧
      (∀ entry ∈ before, Workflow.ofDatum? .toml entry.2 ≠ none) ∧
      Workflow.ofDatum? .toml d = none ∧
      readWorkflows table = .error (.malformedWorkflow key) := by
  induction table with
  | nil => exact .inl ⟨[], rfl, .nil⟩
  | cons entry table ih =>
    obtain ⟨key, d⟩ := entry
    by_cases hd : isWorkflowTable d = true
    · rw [readWorkflows, if_pos hd, workflowEntries_cons_of_pos hd, readWorkflow]
      rcases hw : Workflow.ofDatum? .toml d with _ | w
      · exact .inr ⟨[], key, d, _, rfl, by simp, hw, rfl⟩
      · rcases ih with
          ⟨workflows, hread, hall⟩ | ⟨before, key', d', after, hsplit, hbefore, hd', hread⟩
        · refine .inl ⟨_, by rw [hread]; rfl, .cons ⟨rfl, w, hw, rfl⟩ hall⟩
        · refine .inr ⟨(key, d) :: before, key', d', after, ?_, ?_, hd', by rw [hread]; rfl⟩
          · rw [hsplit, List.cons_append]
          · intro entry hentry
            rcases List.mem_cons.1 hentry with rfl | hentry
            · simp [hw]
            · exact hbefore entry hentry
    · rw [readWorkflows, if_neg hd, workflowEntries_cons_of_neg hd]
      exact ih

/-- The other entries are passed over. -/
theorem readWorkflows_workflowEntries (table : Fields Datum) :
    readWorkflows (workflowEntries table) = readWorkflows table := by
  induction table with
  | nil => rfl
  | cons entry table ih =>
    obtain ⟨key, d⟩ := entry
    by_cases hd : isWorkflowTable d = true
    · rw [workflowEntries_cons_of_pos hd, readWorkflows, readWorkflows, if_pos hd, if_pos hd, ih]
    · rw [workflowEntries_cons_of_neg hd, ih, readWorkflows, if_neg hd]

theorem names_of_readAs {entries : Fields Datum} (h : Forall₂ ReadAs entries workflows) :
    workflows.names = entries.names := by
  induction h with
  | nil => rfl
  | cons hread _ ih => exact congrArg₂ List.cons hread.1 ih

theorem get?_of_readAs {entries : Fields Datum} (h : Forall₂ ReadAs entries workflows)
    (hd : entries.get? key = some d) :
    ∃ w, Workflow.ofDatum? .toml d = some w ∧
      workflows.get? key = some (if Text.allBlank w.name then { w with name := key } else w) := by
  induction h with
  | nil => cases hd
  | @cons entry named _ _ hread _ ih =>
    obtain ⟨name, d'⟩ := entry
    obtain ⟨name', w'⟩ := named
    obtain ⟨hname, w, hw, hnamed⟩ := hread
    dsimp only at hname hw hnamed
    subst hname
    rw [Fields.get?_cons] at hd ⊢
    by_cases hkey : name' = key
    · rw [if_pos hkey, Option.some.injEq] at hd
      rw [if_pos hkey, hnamed, ← hd, ← hkey]
      exact ⟨w, hw, rfl⟩
    · rw [if_neg hkey] at hd ⊢
      exact ih hd

/-- The value of a key describes a workflow, but has the wrong shape. -/
def Misshapen (table : Fields Datum) (key : String) : Prop :=
  ∃ d, table.get? key = some d ∧ HoldsSteps d ∧ Workflow.ofDatum? .toml d = none

theorem misshapen_iff (hsorted : table.Sorted) :
    Misshapen table key ↔
      ∃ d, (workflowEntries table).get? key = some d ∧ Workflow.ofDatum? .toml d = none := by
  simp only [Misshapen, get?_workflowEntries hsorted, and_assoc]

/-- The entry at which reading ends is the misshapen one with the smallest key. -/
theorem misshapen_of_split (hsorted : table.Sorted) {before after : Fields Datum}
    (hsplit : workflowEntries table = before ++ (key, d) :: after)
    (hbefore : ∀ entry ∈ before, Workflow.ofDatum? .toml entry.2 ≠ none)
    (hd : Workflow.ofDatum? .toml d = none) :
    Misshapen table key ∧ ∀ other, Misshapen table other → other ≠ key → key < other := by
  have hentries := sorted_workflowEntries hsorted
  constructor
  · refine (misshapen_iff hsorted).2 ⟨d, ?_, hd⟩
    rw [hentries.get?_eq_some_iff, hsplit]
    exact List.mem_append_right _ List.mem_cons_self
  · intro other hother hne
    obtain ⟨d', hget, hd'⟩ := (misshapen_iff hsorted).1 hother
    rw [hentries.get?_eq_some_iff, hsplit] at hget
    rw [Fields.Sorted, hsplit] at hentries
    obtain ⟨-, htail, -⟩ := List.pairwise_append.1 hentries
    rcases List.mem_append.1 hget with hmem | hmem
    · exact absurd hd' (hbefore _ hmem)
    · rcases List.mem_cons.1 hmem with heq | hmem
      · exact absurd (congrArg Prod.fst heq) hne
      · exact (List.pairwise_cons.1 htail).1 _ hmem

end Document

/-! ## Modules -/

namespace Module

open Document

variable {table other : Fields Datum} {key : String} {m : Module}

theorem read_eq (text : String) :
    Module.read text = match Toml.read? text with
      | some table => ofTable table
      | none => .error .malformed := by
  rw [Module.read, Document.read]
  cases Toml.read? text <;> rfl

theorem ofTable_eq (hmeta : table.get? "meta" = none) :
    ofTable table = (readWorkflows table).bind fun workflows =>
      if workflows = [] then .error .noWorkflows else .ok { workflows } := by
  have hhas : table.has "meta" = false := by rw [Fields.has, hmeta, Option.isSome_none]
  rw [ofTable, Document.ofTable, hhas]
  rcases readWorkflows table with e | _ | ⟨entry, rest⟩ <;> rfl

/-- All workflows are read and there is one, or there is none, or one has the wrong shape. -/
theorem ofTable_cases (hmeta : table.get? "meta" = none) :
    (∃ m, ofTable table = .ok m ∧ m.path = none ∧ workflowEntries table ≠ [] ∧
      Forall₂ ReadAs (workflowEntries table) m.workflows) ∨
    (workflowEntries table = [] ∧ ofTable table = .error .noWorkflows) ∨
    ∃ before key d after, workflowEntries table = before ++ (key, d) :: after ∧
      (∀ entry ∈ before, Workflow.ofDatum? .toml entry.2 ≠ none) ∧
      Workflow.ofDatum? .toml d = none ∧ ofTable table = .error (.malformedWorkflow key) := by
  rw [ofTable_eq hmeta]
  rcases readWorkflows_cases table with
    ⟨workflows, hread, hall⟩ | ⟨before, key, d, after, hsplit, hbefore, hd, hread⟩
  · rw [hread]
    generalize workflowEntries table = entries at hall ⊢
    cases hall with
    | nil => exact .inr (.inl ⟨rfl, rfl⟩)
    | cons hhead htail =>
      exact .inl ⟨{ workflows := _ }, rfl, rfl, List.cons_ne_nil _ _, .cons hhead htail⟩
  · rw [hread]
    exact .inr (.inr ⟨before, key, d, after, hsplit, hbefore, hd, rfl⟩)

theorem ofTable_eq_malformed_iff (hsorted : table.Sorted) (hmeta : table.get? "meta" = none) :
    ofTable table = .error (.malformedWorkflow key) ↔
      Misshapen table key ∧ ∀ other, Misshapen table other → other ≠ key → key < other := by
  rcases ofTable_cases hmeta with
    ⟨m, hm, -, -, hall⟩ | ⟨hnone, herror⟩ | ⟨before, key', d, after, hsplit, hbefore, hd, herror⟩
  · refine iff_of_false (by rw [hm]; nofun) fun h => ?_
    obtain ⟨d, hget, hd⟩ := (misshapen_iff hsorted).1 h.1
    obtain ⟨w, hw, -⟩ := get?_of_readAs hall hget
    rw [hd] at hw
    cases hw
  · refine iff_of_false (by rw [herror]; nofun) fun h => ?_
    obtain ⟨d, hget, -⟩ := (misshapen_iff hsorted).1 h.1
    rw [hnone] at hget
    cases hget
  · obtain ⟨hmis, hleast⟩ := misshapen_of_split hsorted hsplit hbefore hd
    rw [herror]
    constructor
    · intro h
      cases h
      exact ⟨hmis, hleast⟩
    · rintro ⟨hkey, hfirst⟩
      by_cases heq : key = key'
      · rw [heq]
      · exact absurd (hfirst key' hmis (Ne.symm heq)) (String.lt_asymm (hleast key hkey heq))

theorem ofTable_eq_noWorkflows_iff (hsorted : table.Sorted) (hmeta : table.get? "meta" = none) :
    ofTable table = .error .noWorkflows ↔
      ∀ key d, table.get? key = some d → ¬ HoldsSteps d := by
  have hentries : workflowEntries table = [] ↔
      ∀ key d, table.get? key = some d → ¬ HoldsSteps d := by
    simp only [workflowEntries, List.filter_eq_nil_iff, isWorkflowTable_iff, Prod.forall,
      hsorted.get?_eq_some_iff]
  rw [← hentries]
  rcases ofTable_cases hmeta with
    ⟨m, hm, -, hne, -⟩ | ⟨hnone, herror⟩ | ⟨before, key', d, after, hsplit, -, -, herror⟩
  · exact iff_of_false (by rw [hm]; nofun) hne
  · exact iff_of_true herror hnone
  · refine iff_of_false (by rw [herror]; nofun) ?_
    rw [hsplit]
    simp

theorem readAs_of_ofTable (hmeta : table.get? "meta" = none) (h : ofTable table = .ok m) :
    m.path = none ∧ workflowEntries table ≠ [] ∧
      Forall₂ ReadAs (workflowEntries table) m.workflows := by
  rcases ofTable_cases hmeta with
    ⟨m', hm, hpath, hne, hall⟩ | ⟨-, herror⟩ | ⟨_, _, _, _, -, -, -, herror⟩
  · rw [hm] at h
    cases h
    exact ⟨hpath, hne, hall⟩
  · rw [herror] at h
    cases h
  · rw [herror] at h
    cases h

theorem mem_names_of_ofTable (hsorted : table.Sorted) (hmeta : table.get? "meta" = none)
    (h : ofTable table = .ok m) :
    key ∈ m.names ↔ ∃ d, table.get? key = some d ∧ HoldsSteps d := by
  obtain ⟨-, -, hall⟩ := readAs_of_ofTable hmeta h
  rw [names, names_of_readAs hall, ← Fields.get?_isSome_iff, Option.isSome_iff_exists]
  exact exists_congr fun d => get?_workflowEntries hsorted

theorem get?_of_ofTable (hsorted : table.Sorted) (hmeta : table.get? "meta" = none)
    (h : ofTable table = .ok m) {d : Datum} (hget : table.get? key = some d)
    (hd : HoldsSteps d) :
    ∃ w, Workflow.ofDatum? .toml d = some w ∧
      m.get? key = some (if Text.allBlank w.name then { w with name := key } else w) := by
  obtain ⟨-, -, hall⟩ := readAs_of_ofTable hmeta h
  exact get?_of_readAs hall ((get?_workflowEntries hsorted).2 ⟨hget, hd⟩)

/-- A module is read exactly if there is a workflow and all workflows have the right shape. -/
theorem exists_ofTable_eq_ok_iff (hsorted : table.Sorted) (hmeta : table.get? "meta" = none) :
    (∃ m, ofTable table = .ok m) ↔
      (∃ key d, table.get? key = some d ∧ HoldsSteps d) ∧ ∀ key, ¬ Misshapen table key := by
  constructor
  · rintro ⟨m, h⟩
    obtain ⟨-, hne, hall⟩ := readAs_of_ofTable hmeta h
    constructor
    · obtain ⟨⟨key, d⟩, hmem⟩ := List.exists_mem_of_ne_nil _ hne
      have hget := (sorted_workflowEntries hsorted).get?_eq_some_iff.2 hmem
      exact ⟨key, d, (get?_workflowEntries hsorted).1 hget⟩
    · rintro key ⟨d, hget, hd, hnone⟩
      obtain ⟨w, hw, -⟩ := get?_of_ofTable hsorted hmeta h hget hd
      rw [hnone] at hw
      cases hw
  · rintro ⟨⟨key, d, hget, hd⟩, hshapes⟩
    rcases ofTable_cases hmeta with
      ⟨m, hm, -⟩ | ⟨-, herror⟩ | ⟨_, key', _, _, hsplit, hbefore, hnone, -⟩
    · exact ⟨m, hm⟩
    · exact absurd hd ((ofTable_eq_noWorkflows_iff hsorted hmeta).1 herror key d hget)
    · exact absurd (misshapen_of_split hsorted hsplit hbefore hnone).1 (hshapes key')

theorem sorted_of_read? {text : String} (h : Toml.read? text = some table) : table.Sorted := by
  simp only [Toml.read?, Option.bind_eq_bind, Option.bind_eq_some_iff, Option.pure_def,
    Option.some.injEq] at h
  obtain ⟨draft, -, root, -, entries, -, rfl⟩ := h
  exact Fields.sorted_ofEntries entries

/-- A document without a description of a single workflow is settled by its tables with steps. Two
documents that bind the same keys to such tables are read as the same module, or fail with the same
error. A module that is read has a workflow for each of these keys and no other one, at least one in
all, and it is what the table is read as, named after the key exactly if its own name is blank. If
one of the tables has the wrong shape, the error names the one whose key has the smallest bytes, and
without any such table the error is that there are no workflows. -/
theorem ofTable_workflows :
    (∀ (text : String) (table : Fields Datum), Toml.read? text = some table →
      table.Sorted ∧ Module.read text = ofTable table) ∧
    (∀ table other : Fields Datum, table.Sorted → other.Sorted →
      table.get? "meta" = none → other.get? "meta" = none →
      (∀ key d, HoldsSteps d → (table.get? key = some d ↔ other.get? key = some d)) →
        ofTable table = ofTable other) ∧
    ∀ table : Fields Datum, table.Sorted → table.get? "meta" = none →
      (∀ m, ofTable table = .ok m →
        m.path = none ∧ m.names ≠ [] ∧ m.workflows.Sorted ∧
        (∀ key, key ∈ m.names ↔ ∃ d, table.get? key = some d ∧ HoldsSteps d) ∧
        ∀ key d, table.get? key = some d → HoldsSteps d →
          ∃ w, Workflow.ofDatum? .toml d = some w ∧
            m.get? key = some (if Text.allBlank w.name then { w with name := key } else w)) ∧
      (∀ key, ofTable table = .error (.malformedWorkflow key) ↔
        Misshapen table key ∧
          ∀ other, Misshapen table other → other ≠ key → Text.bytes key < Text.bytes other) ∧
      (ofTable table = .error .noWorkflows ↔
        ∀ key d, table.get? key = some d → ¬ HoldsSteps d) ∧
      ((∃ m, ofTable table = .ok m) ↔
        (∃ key d, table.get? key = some d ∧ HoldsSteps d) ∧ ∀ key, ¬ Misshapen table key) := by
  refine ⟨fun text table hread => ⟨sorted_of_read? hread, ?_⟩,
    fun table other hsorted hother hmeta hmeta' h => ?_,
    fun table hsorted hmeta => ⟨fun m hm => ?_, fun key => ?_, ?_, ?_⟩⟩
  · rw [read_eq, hread]
  · rw [ofTable_eq hmeta, ofTable_eq hmeta', ← readWorkflows_workflowEntries table,
      workflowEntries_eq hsorted hother h, readWorkflows_workflowEntries]
  · obtain ⟨hpath, hne, hall⟩ := readAs_of_ofTable hmeta hm
    have hnames : m.names = (workflowEntries table).names := names_of_readAs hall
    refine ⟨hpath, ?_, ?_, fun key => mem_names_of_ofTable hsorted hmeta hm,
      fun key d => get?_of_ofTable hsorted hmeta hm⟩
    · rw [hnames, Fields.names, ne_eq, List.map_eq_nil_iff]
      exact hne
    · rw [Fields.sorted_iff_names, show m.workflows.names = _ from hnames,
        ← Fields.sorted_iff_names]
      exact sorted_workflowEntries hsorted
  · simp only [← Text.lt_iff_bytes_lt]
    exact ofTable_eq_malformed_iff hsorted hmeta
  · exact ofTable_eq_noWorkflows_iff hsorted hmeta
  · exact exists_ofTable_eq_ok_iff hsorted hmeta

/-- A document of a workflow of the wrong shape, one of the right shape, and a title. -/
def mixedTable : Fields Datum :=
  [("build", .table [("steps", .list [.table [("id", .int 3)]])]),
    ("main", .table [("steps", .list [])]), ("title", .text "nightly")]

/-- The same workflows with other values around them. -/
def retitledTable : Fields Datum :=
  [("author", .table []), ("build", .table [("steps", .list [.table [("id", .int 3)]])]),
    ("main", .table [("steps", .list [])])]

/-- The document with the workflow of the right shape alone. -/
def emptyTable : Fields Datum := [("main", .table [("steps", .list [])])]

/-- The title does not count, the wrong shape is reported for its key, and a workflow without a name
is named after its key. -/
theorem mixedTable_workflows :
    ofTable mixedTable = ofTable retitledTable ∧
    ofTable mixedTable = .error (.malformedWorkflow "build") ∧
    ∃ m, ofTable emptyTable = .ok m ∧ m.get? "main" = some { name := "main" } := by
  obtain ⟨-, hsame, htable⟩ := ofTable_workflows
  have hsorted : mixedTable.Sorted ∧ retitledTable.Sorted ∧ emptyTable.Sorted := by
    unfold Fields.Sorted
    decide +kernel
  obtain ⟨hmixed, hretitled, hempty⟩ := hsorted
  refine ⟨?_, ?_, ?_⟩
  · refine hsame _ _ hmixed hretitled rfl rfl fun key d hd => ?_
    -- both have the same entries that describe workflows
    rw [← and_iff_left (a := mixedTable.get? key = some d) hd, ← get?_workflowEntries hmixed,
      ← and_iff_left (a := retitledTable.get? key = some d) hd, ← get?_workflowEntries hretitled]
    rfl
  · obtain ⟨-, hmalformed, -⟩ := htable mixedTable hmixed rfl
    refine (hmalformed "build").2 ⟨⟨_, rfl, ⟨_, _, rfl, rfl⟩, rfl⟩, fun other hother hne => ?_⟩
    rw [← Text.lt_iff_bytes_lt]
    obtain ⟨d, hget, -⟩ := hother
    have hmem := Fields.mem_of_get?_eq_some hget
    simp only [mixedTable, List.mem_cons, Prod.mk.injEq, List.not_mem_nil, or_false] at hmem
    rcases hmem with ⟨rfl, -⟩ | ⟨rfl, -⟩ | ⟨rfl, -⟩
    · exact absurd rfl hne
    · decide +kernel
    · decide +kernel
  · obtain ⟨hread, -, -, hok⟩ := htable emptyTable hempty rfl
    have hmain : HoldsSteps (.table [("steps", .list [])]) := ⟨_, _, rfl, rfl⟩
    have hshape : Workflow.ofDatum? .toml (.table [("steps", .list [])]) = some {} := rfl
    have hshapes : ∀ key, ¬ Misshapen emptyTable key := by
      rintro key ⟨d, hget, -, hnone⟩
      have hmem := Fields.mem_of_get?_eq_some hget
      simp only [emptyTable, List.mem_singleton, Prod.mk.injEq] at hmem
      rw [hmem.2, hshape] at hnone
      cases hnone
    obtain ⟨m, hm⟩ := hok.2 ⟨⟨"main", _, rfl, hmain⟩, hshapes⟩
    obtain ⟨-, -, -, -, hvalues⟩ := hread m hm
    obtain ⟨w, hw, hget⟩ := hvalues "main" _ rfl hmain
    rw [hshape, Option.some.injEq] at hw
    subst hw
    exact ⟨m, hm, hget⟩

end Module

end WorkflowCompiler
