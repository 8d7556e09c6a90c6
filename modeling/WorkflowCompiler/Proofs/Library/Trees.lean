import WorkflowCompiler.Proofs.Attempts
import WorkflowCompiler.Proofs.Library.Visits

/-!
# What a loaded tree holds

If following references from a workflow ends without an error, then all that is reached was visited:
every reference leads on, no way comes back to where it was (`Documents.Explored`), and exactly the
documents that are reached were loaded (`Library.explored_of_walk`). So a tree that was loaded holds
all its workflows need, and nothing else (`TreeStart.covers_of_load`).
-/

namespace WorkflowCompiler

open Relation (ReflTransGen TransGen)

/-- The tree holds what the workflow at the root needs. -/
structure TemplateTree.Covers (t : TemplateTree) (docs : Documents) (root : Address) : Prop where
  /-- the root document has its name -/
  root_eq : t.root = root.file
  /-- the documents are those of the workflows that are reached -/
  mem_names : ∀ file, file ∈ t.modules.names ↔ ∃ a, docs.Reaches root a ∧ a.file = file
  /-- a document is what its name stands for -/
  agrees : ∀ file m, t.modules.get? file = some m → docs file = .ok m
  /-- all references lead to workflows, and to no internal ones of other documents -/
  whole : docs.Whole root
  /-- no workflow that is reached refers to itself, directly or through others -/
  acyclic : ∀ a, docs.Reaches root a → ¬ TransGen docs.Refers a a

/-! ## Exploring -/

/-- All that is reached from the address may be followed, and does not come back, not even to what
is above. -/
structure Documents.Explored (docs : Documents) (above : List String) (a : Address) : Prop where
  /-- nothing above is reached -/
  new : ∀ b, docs.Reaches a b → b.key ∉ above
  /-- a reference leads to a workflow that may be referred to -/
  follows : ∀ b, docs.Reaches a b → ∀ w, docs.Holds b w → ∀ text, w.RefersBy text →
    ∃ c, docs.Selects (Reference.asked b.file text).1 (Reference.asked b.file text).2 c ∧
      docs.Open (some b.file) c
  /-- nothing comes back -/
  acyclic : ∀ b, docs.Reaches a b → ¬ TransGen docs.Refers b b

namespace Documents

variable {docs : Documents}

/-- A workflow is explored when what it refers to is, with the workflow itself above. -/
theorem Explored.of_references {above : List String} {a : Address} {w : Workflow}
    (hnew : a.key ∉ above) (hholds : docs.Holds a w)
    (h : ∀ text, w.RefersBy text →
      ∃ b, docs.Selects (Reference.asked a.file text).1 (Reference.asked a.file text).2 b ∧
        docs.Open (some a.file) b ∧ docs.Explored (a.key :: above) b) : docs.Explored above a := by
  have hnext : ∀ {b}, docs.Refers a b → docs.Explored (a.key :: above) b := by
    rintro b ⟨w', text, hw', htext, hb⟩
    rw [hw'.unique hholds] at htext
    obtain ⟨b', hb', -, hexplored⟩ := h text htext
    rw [hb.unique hb']
    exact hexplored
  refine ⟨fun b hway => ?_, fun b hway => ?_, fun b hway => ?_⟩
  · rcases ReflTransGen.cases_head hway with rfl | ⟨c, hstep, hrest⟩
    · exact hnew
    · exact fun hmem => (hnext hstep).new b hrest (List.mem_cons_of_mem _ hmem)
  · rcases ReflTransGen.cases_head hway with rfl | ⟨c, hstep, hrest⟩
    · intro w' hw' text htext
      rw [hw'.unique hholds] at htext
      obtain ⟨b, hb, hopen, -⟩ := h text htext
      exact ⟨b, hb, hopen⟩
    · exact (hnext hstep).follows b hrest
  · rcases ReflTransGen.cases_head hway with rfl | ⟨c, hstep, hrest⟩
    · -- what the workflow refers to does not lead back to it, as it is above
      intro hcircle
      obtain ⟨c, hstep, hback⟩ := TransGen.head'_iff.1 hcircle
      exact (hnext hstep).new _ hback List.mem_cons_self
    · exact (hnext hstep).acyclic b hrest

/-- Documents that were explored from an open root are whole. -/
theorem Explored.whole {above : List String} {root : Address} (h : docs.Explored above root)
    (hopen : docs.Open none root) : docs.Whole root where
  root_open := by
    intro w hw
    cases hinternal : w.internal with
    | false => rfl
    | true => cases hopen w hw hinternal
  resolves := by
    intro a hway w hw text htext
    obtain ⟨b, hb, -⟩ := h.follows a hway w hw text htext
    exact ⟨b, hb⟩
  internal := by
    rintro a b hway ⟨w, text, hw, htext, hb⟩ w' hw' hinternal
    obtain ⟨b', hb', hopen'⟩ := h.follows a hway w hw text htext
    rw [hb.unique hb'] at hw' ⊢
    exact (Option.some.inj (hopen' w' hw' hinternal)).symm

end Documents

/-! ## Walks that end without an error -/

namespace Library

variable {l : Library} {d : Disk} {docs : Documents} {fuel : Nat} {tracker : Tracker}
  {modules modules' : Fields Module} {file : String} {workflow origin : Option String}

/-- The document is one that is reached from what is asked for. -/
def ReachedFrom (docs : Documents) (file : String) (workflow : Option String) (name : String) :
    Prop :=
  ∃ a b, docs.Selects file workflow a ∧ docs.Reaches a b ∧ b.file = name

/-- What is asked for was found and explored. -/
def ExploredFrom (docs : Documents) (above : List String) (origin : Option String) (file : String)
    (workflow : Option String) : Prop :=
  ∃ a, docs.Selects file workflow a ∧ docs.Open origin a ∧ docs.Explored above a

/-- Following references one after the other does what each of them does. -/
theorem explored_of_follow {texts : List String} {above : List String}
    (hwalk : ∀ {modules modules' workflow origin name}, docs.Loaded l d modules →
      l.walk d fuel tracker modules name workflow origin = .ok modules' →
      docs.Loaded l d modules' ∧ ExploredFrom docs above origin name workflow ∧
        ∀ name', name' ∈ modules'.names ↔
          name' ∈ modules.names ∨ ReachedFrom docs name workflow name')
    (hloaded : docs.Loaded l d modules)
    (h : l.follow d fuel tracker file modules texts = .ok modules') :
    docs.Loaded l d modules' ∧
      (∀ text ∈ texts, ExploredFrom docs above (some file) (Reference.asked file text).1
        (Reference.asked file text).2) ∧
      ∀ name, name ∈ modules'.names ↔
        name ∈ modules.names ∨ ∃ text ∈ texts,
          ReachedFrom docs (Reference.asked file text).1 (Reference.asked file text).2 name := by
  induction texts generalizing modules with
  | nil =>
    cases h
    exact ⟨hloaded, by simp, by simp⟩
  | cons text texts ih =>
    rw [follow_cons] at h
    rcases hfirst : l.walk d fuel tracker modules (Reference.asked file text).1
      (Reference.asked file text).2 (some file) with e | modules₁
    · rw [hfirst] at h
      cases h
    · rw [hfirst] at h
      obtain ⟨hloaded₁, hexplored, hnames⟩ := hwalk hloaded hfirst
      obtain ⟨hloaded', hall, hnames'⟩ := ih hloaded₁ h
      refine ⟨hloaded', List.forall_mem_cons.2 ⟨hexplored, hall⟩, fun name => ?_⟩
      rw [hnames', hnames, or_assoc]
      simp only [List.mem_cons, exists_eq_or_imp]

/-- If following what is asked for ends without an error, it is explored, and the documents that
were loaded on the way are those that are reached. -/
theorem explored_of_walk (hloaded : docs.Loaded l d modules)
    (h : l.walk d fuel tracker modules file workflow origin = .ok modules') :
    docs.Loaded l d modules' ∧ ExploredFrom docs tracker.inProgress origin file workflow ∧
      ∀ name, name ∈ modules'.names ↔
        name ∈ modules.names ∨ ReachedFrom docs file workflow name := by
  induction fuel generalizing tracker modules file workflow origin modules' with
  | zero => cases h
  | succ fuel ih =>
    have hvisit := walk_visit hloaded fuel tracker file workflow origin
    rw [h] at hvisit
    cases hvisit with
    | missing _ _ hr => cases hr
    | internal _ _ hr => cases hr
    | circular _ _ hr => cases hr
    | @entered a w modules₁ hselects hholds hopen hnew hloaded₁ hnames₁ hr =>
      obtain ⟨hloaded', hall, hnames⟩ :=
        explored_of_follow (fun hl hw => ih hl hw) hloaded₁ hr.symm
      refine ⟨hloaded', ⟨a, hselects, hopen, .of_references hnew hholds fun text htext => ?_⟩,
        fun name => ?_⟩
      · exact hall text (mem_references_iff.2 htext)
      · rw [hnames, hnames₁]
        constructor
        · rintro ((rfl | hmem) | ⟨text, htext, b, c, hb, hway, hc⟩)
          · exact .inr ⟨a, a, hselects, .refl, rfl⟩
          · exact .inl hmem
          · have hstep : docs.Refers a b := ⟨w, text, hholds, mem_references_iff.1 htext, hb⟩
            exact .inr ⟨a, c, hselects, .head hstep hway, hc⟩
        · rintro (hmem | ⟨a', c, ha', hway, hc⟩)
          · exact .inl (.inr hmem)
          · rw [ha'.unique hselects] at hway
            rcases ReflTransGen.cases_head hway with rfl | ⟨b, ⟨w', text, hw', htext, hb⟩, hrest⟩
            · exact .inl (.inl hc.symm)
            · rw [hw'.unique hholds] at htext
              exact .inr ⟨text, mem_references_iff.2 htext, b, c, hb, hrest, hc⟩

/-- If following references one after the other fails, one of them fails. -/
theorem exists_of_follow_eq_error {texts : List String} {e : LoadError}
    (hloaded : docs.Loaded l d modules)
    (h : l.follow d fuel tracker file modules texts = .error e) :
    ∃ text ∈ texts, ∃ modules', docs.Loaded l d modules' ∧
      l.walk d fuel tracker modules' (Reference.asked file text).1 (Reference.asked file text).2
        (some file) = .error e := by
  induction texts generalizing modules with
  | nil => cases h
  | cons text texts ih =>
    rw [follow_cons] at h
    rcases hfirst : l.walk d fuel tracker modules (Reference.asked file text).1
      (Reference.asked file text).2 (some file) with e' | modules₁
    · rw [hfirst] at h
      cases h
      exact ⟨text, List.mem_cons_self, modules, hloaded, hfirst⟩
    · rw [hfirst] at h
      obtain ⟨text', htext', rest⟩ := ih (explored_of_walk hloaded hfirst).1 h
      exact ⟨text', List.mem_cons_of_mem _ htext', rest⟩

end Library

/-! ## Loading -/

namespace TreeStart

variable {l : Library} {d : Disk} {start : TreeStart}

/-- Loading a tree follows what is asked for, with the documents at hand. -/
theorem load_of_asked {file : String} {workflow : Option String}
    (h : start.asked? = some (file, workflow)) :
    start.load l d =
      (l.walk d (l.walkBound d start.given) {} start.given file workflow none).map fun modules =>
        { root := file, modules } := by
  cases start with
  | reference text =>
    rw [asked?] at h
    rw [load, Library.loadTree]
    rcases hread : Reference.read text with name | ⟨file', workflow'⟩
    · rw [hread] at h
      cases h
    · rw [hread] at h
      cases h
      rfl
  | document name m workflow' =>
    cases h
    rfl

/-- Loading a tree fails as following what is asked for does. -/
theorem load_eq_error_iff {file : String} {workflow : Option String} {e : LoadError}
    (h : start.asked? = some (file, workflow)) :
    start.load l d = .error e ↔
      l.walk d (l.walkBound d start.given) {} start.given file workflow none = .error e := by
  rw [load_of_asked h]
  rcases l.walk d (l.walkBound d start.given) {} start.given file workflow none with e' | modules
  · rw [Except.map, Except.error.injEq, Except.error.injEq]
  · rw [Except.map]
    exact ⟨nofun, nofun⟩

/-- If nothing is asked for, nothing is loaded. -/
theorem load_of_not_asked (h : start.asked? = none) :
    ∃ text, start.load l d = .error (.dangling text) := by
  cases start with
  | reference text =>
    rw [asked?] at h
    rw [load, Library.loadTree]
    rcases hread : Reference.read text with name | ⟨file', workflow'⟩
    · exact ⟨text, rfl⟩
    · rw [hread] at h
      cases h
  | document name m workflow => cases h

theorem eq_of_mem_given {file name : String} {workflow : Option String}
    (h : start.asked? = some (file, workflow)) (hname : name ∈ start.given.names) :
    name = file := by
  cases start with
  | reference text => cases hname
  | document name' m workflow' =>
    cases h
    exact List.mem_singleton.1 hname

/-- A tree that was loaded holds what was asked for: its documents are those of the workflows that
are reached, each as its name stands for it, all references that are reached lead on, to internal
workflows from their own document only, and none leads back. -/
theorem covers_of_load {t : TemplateTree} (h : start.load l d = .ok t) :
    ∃ file workflow root, start.asked? = some (file, workflow) ∧
      (start.documents l d).Selects file workflow root ∧ t.Covers (start.documents l d) root := by
  rcases hasked : start.asked? with _ | ⟨file, workflow⟩
  · obtain ⟨text, herror⟩ := load_of_not_asked (l := l) (d := d) hasked
    rw [herror] at h
    cases h
  · rw [load_of_asked hasked] at h
    rcases hwalk : l.walk d (l.walkBound d start.given) {} start.given file workflow none
      with e | modules
    · rw [hwalk] at h
      cases h
    · rw [hwalk] at h
      cases h
      obtain ⟨hloaded, ⟨root, hroot, hopen, hexplored⟩, hnames⟩ :=
        Library.explored_of_walk (loaded_given l d start) hwalk
      refine ⟨file, workflow, root, rfl, hroot, hroot.1.symm, fun name => ?_, fun name m hm => ?_,
        hexplored.whole hopen, hexplored.acyclic⟩
      · -- a document at hand is the root document
        rw [hnames]
        constructor
        · rintro (hmem | ⟨a, b, ha, hway, hb⟩)
          · exact ⟨root, .refl, hroot.1.trans (eq_of_mem_given hasked hmem).symm⟩
          · rw [ha.unique hroot] at hway
            exact ⟨b, hway, hb⟩
        · rintro ⟨b, hway, hb⟩
          exact .inr ⟨root, b, hroot, hway, hb⟩
      · exact hloaded.agrees hm

end TreeStart

/-- A document at hand, which refers to another one. -/
def releaseStart : TreeStart :=
  .document "release" (.single { steps := [{ id := "build", template := some "tools#compile" }] })
    none

/-- The other document, in which an internal workflow is referred to. -/
def toolsLibrary : Library where
  embedded :=
    [("tools", "[[compile.steps]]\nid=\"link\"\ntemplate=\".linker\"\n" ++
      "[linker]\ninternal=true\nsteps=[]")]

/-- Loading the document at hand loads the other one too. -/
theorem releaseStart_covers :
    ∃ t, releaseStart.load toolsLibrary {} = .ok t ∧ t.modules.names = ["release", "tools"] ∧
      ∃ file workflow root, releaseStart.asked? = some (file, workflow) ∧
        (releaseStart.documents toolsLibrary {}).Selects file workflow root ∧
        t.Covers (releaseStart.documents toolsLibrary {}) root := by
  obtain ⟨t, hload, hnames⟩ := Option.map_eq_some_iff.1
    (show (releaseStart.load toolsLibrary {}).toOption.map (fun t => t.modules.names) =
      some ["release", "tools"] by decide +kernel)
  have hok := Attempt.eq_ok_of_toOption_eq_some hload
  exact ⟨t, hok, hnames, TreeStart.covers_of_load hok⟩

end WorkflowCompiler
