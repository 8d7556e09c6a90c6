import Mathlib.Logic.Relation
import WorkflowCompiler.Proofs.Library.Mentions

/-!
# Documents that refer to each other

Names stand for documents (`Documents`), and a workflow has an `Address`: the name of its document,
and its key in it. A workflow refers to another one if one of its references selects that workflow
(`Documents.Refers`). Nothing here speaks of how references are followed: these are the notions by
which a loaded tree is judged.

What a tree is loaded for is a `TreeStart`, and `TreeStart.documents` are the documents that names
stand for while it is loaded.
-/

namespace WorkflowCompiler

open Relation (ReflTransGen TransGen)

/-! ## The workflow that a reference selects -/

/-- A reference with this key, if it gives one, selects in the document the workflow of the other
key: without a key that is the workflow of the entry key, or else the only one. -/
inductive Module.Selects (m : Module) : Option String → String → Workflow → Prop
  | named {key : String} {w : Workflow} (h : m.get? key = some w) : Selects m (some key) key w
  | entry {w : Workflow} (h : m.get? entryKey = some w) : Selects m none entryKey w
  | only {key : String} {w : Workflow} (hentry : m.get? entryKey = none)
      (h : m.workflows = [(key, w)]) : Selects m none key w

theorem Module.Selects.get?_eq {m : Module} {workflow : Option String} {key : String}
    {w : Workflow} (h : m.Selects workflow key w) : m.get? key = some w := by
  cases h with
  | named h => exact h
  | entry h => exact h
  | only _ h => rw [Module.get?, h, Fields.get?_cons, if_pos rfl]

/-- A workflow is selected, or an error says that there is none. -/
theorem selectWorkflow_cases (m : Module) (file : String) (workflow : Option String) :
    (∃ key w, m.Selects workflow key w ∧ selectWorkflow m file workflow = .ok (key, w)) ∨
      selectWorkflow m file workflow =
        .error (.noWorkflow file (workflow.getD Module.entryKey) m.names) := by
  cases workflow with
  | some key =>
    rcases hfound : m.get? key with _ | w
    · exact .inr (by simp only [selectWorkflow, hfound, Option.map_none])
    · exact .inl ⟨key, w, .named hfound, by simp only [selectWorkflow, hfound, Option.map_some]⟩
  | none =>
    rcases hentry : m.get? Module.entryKey with _ | w
    · rcases hall : m.workflows with _ | ⟨⟨key, w⟩, _ | _⟩
      · exact .inr (by simp only [selectWorkflow, hentry, hall])
      · exact .inl ⟨key, w, .only hentry hall, by simp only [selectWorkflow, hentry, hall]⟩
      · exact .inr (by simp only [selectWorkflow, hentry, hall])
    · exact .inl ⟨_, w, .entry hentry, by simp only [selectWorkflow, hentry]⟩

theorem selectWorkflow_eq_ok_iff {m : Module} (file : String) {workflow : Option String}
    {key : String} {w : Workflow} :
    selectWorkflow m file workflow = .ok (key, w) ↔ m.Selects workflow key w := by
  constructor
  · intro h
    rcases selectWorkflow_cases m file workflow with ⟨key', w', hselects, hok⟩ | herror
    · rw [hok, Except.ok.injEq, Prod.mk.injEq] at h
      rw [← h.1, ← h.2]
      exact hselects
    · rw [herror] at h
      cases h
  · rintro (h | h | ⟨hentry, h⟩)
    · simp only [selectWorkflow, h, Option.map_some]
    · simp only [selectWorkflow, h]
    · simp only [selectWorkflow, hentry, h]

/-! ## Addresses -/

/-- Where a workflow is found. -/
structure Address where
  /-- the name of its document -/
  file : String
  /-- its key in the document -/
  workflow : String
deriving DecidableEq

/-- The text that stands for the workflow while references are followed. -/
def Address.key (a : Address) : String := Reference.key a.file a.workflow

/-- What a reference in a document asks for: the name of a document, and perhaps a key in it. -/
def Reference.asked (file text : String) : String × Option String := (Reference.read text).from file

/-- What the names of documents stand for. -/
abbrev Documents := String → Except LoadError Module

namespace Documents

variable (docs : Documents)

/-- The workflow is found at the address. -/
def Holds (a : Address) (w : Workflow) : Prop :=
  ∃ m, docs a.file = .ok m ∧ m.get? a.workflow = some w

/-- What is asked for is found at the address. -/
def Selects (file : String) (workflow : Option String) (a : Address) : Prop :=
  a.file = file ∧ ∃ m w, docs file = .ok m ∧ m.Selects workflow a.workflow w

/-- The workflow at the first address has a reference to the one at the second. -/
def Refers (a b : Address) : Prop :=
  ∃ w text, docs.Holds a w ∧ w.RefersBy text ∧
    docs.Selects (Reference.asked a.file text).1 (Reference.asked a.file text).2 b

/-- References lead from the first address to the second. -/
def Reaches : Address → Address → Prop := ReflTransGen docs.Refers

/-- Someone who stands in a document, or nowhere, may refer to what is found at the address. -/
def Open (origin : Option String) (a : Address) : Prop :=
  ∀ w, docs.Holds a w → w.internal = true → origin = some a.file

/-- Every reference that is reached leads to a workflow, and to no internal one of another
document. -/
structure Whole (root : Address) : Prop where
  /-- the workflow at the root is not internal -/
  root_open : ∀ w, docs.Holds root w → w.internal = false
  /-- a reference names a workflow -/
  resolves : ∀ a, docs.Reaches root a → ∀ w, docs.Holds a w → ∀ text, w.RefersBy text →
    ∃ b, docs.Selects (Reference.asked a.file text).1 (Reference.asked a.file text).2 b
  /-- an internal workflow is referred to from its own document only -/
  internal : ∀ a b, docs.Reaches root a → docs.Refers a b → ∀ w, docs.Holds b w →
    w.internal = true → b.file = a.file

variable {docs} {file : String} {workflow : Option String} {a b : Address} {w : Workflow}

theorem Holds.unique {w' : Workflow} (h : docs.Holds a w) (h' : docs.Holds a w') : w = w' := by
  obtain ⟨m, hm, hw⟩ := h
  obtain ⟨m', hm', hw'⟩ := h'
  rw [hm, Except.ok.injEq] at hm'
  rw [← hm', hw, Option.some.injEq] at hw'
  exact hw'

theorem Selects.unique (h : docs.Selects file workflow a) (h' : docs.Selects file workflow b) :
    a = b := by
  obtain ⟨hfile, m, w, hm, hselects⟩ := h
  obtain ⟨hfile', m', w', hm', hselects'⟩ := h'
  rw [hm, Except.ok.injEq] at hm'
  rw [← hm', ← selectWorkflow_eq_ok_iff file] at hselects'
  rw [← selectWorkflow_eq_ok_iff file, hselects', Except.ok.injEq, Prod.mk.injEq]
    at hselects
  obtain ⟨af, ak⟩ := a
  obtain ⟨bf, bk⟩ := b
  rw [Address.mk.injEq]
  exact ⟨hfile.trans hfile'.symm, hselects.1.symm⟩

/-- The root of whole documents may be referred to from outside. -/
theorem Whole.open_root {root : Address} (h : docs.Whole root) : docs.Open none root := by
  intro w hholds hinternal
  rw [h.root_open w hholds] at hinternal
  cases hinternal

/-- What whole documents refer to may be referred to. -/
theorem Whole.exists_open {root : Address} (h : docs.Whole root) (hreached : docs.Reaches root a)
    (hholds : docs.Holds a w) {text : String} (htext : w.RefersBy text) :
    ∃ b, docs.Selects (Reference.asked a.file text).1 (Reference.asked a.file text).2 b ∧
      docs.Open (some a.file) b := by
  obtain ⟨b, hb⟩ := h.resolves a hreached w hholds text htext
  refine ⟨b, hb, fun w' hw' hinternal => ?_⟩
  rw [h.internal a b hreached ⟨w, text, hholds, htext, hb⟩ w' hw' hinternal]

/-- Workflows that refer to each other only, none of them internal, are whole, and no others are
reached. -/
theorem whole_of_closed {known : List Address} {root : Address}
    (hroot : root ∈ known)
    (h : ∀ a ∈ known, ∃ w, docs.Holds a w ∧ w.internal = false ∧ ∀ text ∈ references w.steps,
      ∃ b ∈ known, docs.Selects (Reference.asked a.file text).1 (Reference.asked a.file text).2 b) :
    docs.Whole root ∧ ∀ a, docs.Reaches root a → a ∈ known := by
  have hreached : ∀ a, docs.Reaches root a → a ∈ known := by
    intro a hway
    induction hway with
    | refl => exact hroot
    | @tail a b _ hstep ih =>
      obtain ⟨w, text, hw, htext, hb⟩ := hstep
      obtain ⟨w', hw', -, hall⟩ := h a ih
      rw [hw.unique hw'] at htext
      obtain ⟨b', hb', hselects⟩ := hall text (mem_references_iff.2 htext)
      rw [hb.unique hselects]
      exact hb'
  have hopen : ∀ a, docs.Reaches root a → ∀ w, docs.Holds a w → w.internal = false := by
    intro a hway w hw
    obtain ⟨w', hw', hinternal, -⟩ := h a (hreached a hway)
    rw [hw.unique hw']
    exact hinternal
  refine ⟨⟨hopen root .refl, fun a hway w hw text htext => ?_,
    fun a b hway hstep w hw hinternal => ?_⟩, hreached⟩
  · obtain ⟨w', hw', -, hall⟩ := h a (hreached a hway)
    rw [hw.unique hw'] at htext
    obtain ⟨b, -, hb⟩ := hall text (mem_references_iff.2 htext)
    exact ⟨b, hb⟩
  · rw [hopen b (hway.tail hstep) w hw] at hinternal
    cases hinternal

end Documents

/-! ## What a tree is loaded for -/

/-- What a tree is loaded for. -/
inductive TreeStart where
  /-- a reference, which is made outside of all documents -/
  | reference (text : String)
  /-- a workflow of a document at hand, which gets a name -/
  | document (name : String) (m : Module) (workflow : Option String)

namespace TreeStart

/-- What is asked for, unless a reference outside of all documents is to one within a document. -/
def asked? : TreeStart → Option (String × Option String)
  | reference text =>
    match Reference.read text with
    | .sibling _ => none
    | .file file workflow => some (file, workflow)
  | document name _ workflow => some (name, workflow)

/-- The documents that names stand for: those that are loaded for them, and the one at hand. -/
def documents (l : Library) (d : Disk) : TreeStart → Documents
  | reference _ => l.load d
  | document name m _ => fun file => if file = name then .ok m else l.load d file

/-- Loads the tree. -/
def load (l : Library) (d : Disk) : TreeStart → Except LoadError TemplateTree
  | reference text => l.loadTree d text
  | document name m workflow => l.loadTreeFrom d name m workflow

/-- The documents at hand, with their names. -/
def given : TreeStart → Fields Module
  | reference _ => []
  | document name m _ => [(name, m)]

end TreeStart

end WorkflowCompiler
