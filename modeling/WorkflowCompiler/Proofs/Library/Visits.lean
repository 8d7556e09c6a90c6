import WorkflowCompiler.Proofs.Library.Documents
import WorkflowCompiler.Proofs.Reference.Tracking

/-!
# Visiting a workflow

Following references visits one workflow after the other. A visit enters a workflow and leaves it
again, so it ends with the tracker it began with (`visit_eq`), and all visits that a workflow gives
rise to begin with the same tracker (`walk_succ`). What a visit can come to is said once (`Visit`,
`walk_visit`): nothing is found, or what is found may not be referred to, or it is on the
way already, or it is entered and its references are followed. While this goes on, the modules that
were loaded are what their names stand for (`Documents.Loaded`).
-/

namespace WorkflowCompiler

/-! ## Documents at hand and documents that are loaded -/

/-- The documents that names stand for, if some are at hand. -/
def Library.documents (l : Library) (d : Disk) (given : Fields Module) : Documents := fun file =>
  match given.get? file with
  | some m => .ok m
  | none => l.load d file

theorem TreeStart.documents_eq (l : Library) (d : Disk) (start : TreeStart) :
    start.documents l d = l.documents d start.given := by
  funext file
  cases start with
  | reference text => rfl
  | document name m workflow =>
    simp only [Library.documents, given, Fields.get?_cons, documents]
    by_cases h : file = name
    · rw [if_pos h, if_pos h.symm]
    · rw [if_neg h, if_neg (Ne.symm h)]
      rfl

/-- The document of a name, or the one workflow that is asked for in it, is not there. -/
def LoadError.OfDocument : LoadError → Prop
  | notFound _ _ => True
  | unreadable _ _ => True
  | malformed _ _ => True
  | noWorkflow _ _ _ => True
  | _ => False

theorem Library.ofDocument_of_load_eq_error {l : Library} {d : Disk} {name : String} {e : LoadError}
    (h : l.load d name = .error e) : e.OfDocument := by
  have hnamed : ∀ text, readNamed name text = .error e → e.OfDocument := by
    intro text hread
    rw [readNamed] at hread
    rcases hmodule : Module.read text with e' | m
    · rw [hmodule] at hread
      cases hread
      trivial
    · rw [hmodule] at hread
      cases hread
  rw [load] at h
  split at h
  · split at h
    · cases h
      trivial
    · rename_i text _
      rcases hread : readNamed name text with e' | m
      · rw [hread] at h
        cases h
        exact hnamed text hread
      · rw [hread] at h
        cases h
  · split at h
    · rename_i text _
      exact hnamed text h
    · cases h
      trivial

section Loaded

variable {docs : Documents} {l : Library} {d : Disk} {modules : Fields Module} {file : String}

/-- The modules are what their names stand for, and all other names stand for what is loaded. -/
structure Documents.Loaded (docs : Documents) (l : Library) (d : Disk) (modules : Fields Module) :
    Prop where
  /-- a module is what its name stands for -/
  agrees : ∀ {file m}, modules.get? file = some m → docs file = .ok m
  /-- another name stands for what is loaded -/
  rest : ∀ {file}, modules.get? file = none → docs file = l.load d file

theorem Library.loaded_given (l : Library) (d : Disk) (given : Fields Module) :
    (l.documents d given).Loaded l d given where
  agrees := fun h => by rw [documents, h]
  rest := fun h => by rw [documents, h]

theorem TreeStart.loaded_given (l : Library) (d : Disk) (start : TreeStart) :
    (start.documents l d).Loaded l d start.given := by
  rw [documents_eq]
  exact l.loaded_given d start.given

namespace Documents.Loaded

/-- A document that there is, is loaded, and nothing else. -/
theorem loadInto_of_ok (h : docs.Loaded l d modules) {m : Module} (hm : docs file = .ok m) :
    ∃ modules', l.loadInto d modules file = .ok (m, modules') ∧ docs.Loaded l d modules' ∧
      ∀ name, name ∈ modules'.names ↔ name = file ∨ name ∈ modules.names := by
  rcases hget : modules.get? file with _ | m'
  · have hload : l.load d file = .ok m := (h.rest hget).symm.trans hm
    refine ⟨modules.set file m, by rw [Library.loadInto, hget, hload]; rfl, ⟨?_, ?_⟩, ?_⟩
    · intro name m' hname
      rw [Fields.get?_set] at hname
      split at hname
      · rename_i heq
        cases hname
        rw [← heq]
        exact hm
      · exact h.agrees hname
    · intro name hname
      rw [Fields.get?_set] at hname
      split at hname
      · cases hname
      · exact h.rest hname
    · intro name
      rw [← Fields.get?_isSome_iff, ← Fields.get?_isSome_iff, Fields.get?_set]
      by_cases heq : file = name
      · simp [heq]
      · simp [heq, Ne.symm heq]
  · have hm' : m' = m := Except.ok.inj ((h.agrees hget).symm.trans hm)
    refine ⟨modules, by rw [Library.loadInto, hget, hm'], h, fun name => ?_⟩
    have hfile : file ∈ modules.names := Fields.get?_isSome_iff.1 (by rw [hget]; rfl)
    exact ⟨.inr, fun hname => hname.elim (fun heq => heq ▸ hfile) id⟩

/-- A document that there is not, is not loaded. -/
theorem loadInto_of_error (h : docs.Loaded l d modules) {e : LoadError}
    (he : docs file = .error e) : l.loadInto d modules file = .error e ∧ e.OfDocument := by
  rcases hget : modules.get? file with _ | m
  · have hload : l.load d file = .error e := (h.rest hget).symm.trans he
    exact ⟨by rw [Library.loadInto, hget, hload]; rfl, Library.ofDocument_of_load_eq_error hload⟩
  · rw [h.agrees hget] at he
    cases he

end Documents.Loaded

end Loaded

/-! ## Visits -/

namespace Library

variable {l : Library} {d : Disk} {docs : Documents} {fuel : Nat} {tracker : Tracker}
  {modules : Fields Module} {file : String} {workflow origin : Option String}

/-- Follows references in a document, one after the other. -/
def follow (l : Library) (d : Disk) (fuel : Nat) (tracker : Tracker) (file : String)
    (modules : Fields Module) (texts : List String) : Except LoadError (Fields Module) :=
  texts.foldlM (fun modules text =>
    l.walk d fuel tracker modules (Reference.asked file text).1 (Reference.asked file text).2
      (some file)) modules

theorem follow_cons (text : String) (texts : List String) :
    l.follow d fuel tracker file modules (text :: texts) =
      (l.walk d fuel tracker modules (Reference.asked file text).1 (Reference.asked file text).2
        (some file)).bind fun modules => l.follow d fuel tracker file modules texts := by
  rw [follow, List.foldlM_cons]
  rfl

/-- What is done at a workflow: all its references are followed with the tracker in which it is
entered. -/
def descend (l : Library) (d : Disk) (fuel : Nat) (tracker : Tracker) (modules : Fields Module)
    (file : String) (workflow origin : Option String) : Except LoadError (Fields Module) := do
  let (m, modules) ← l.loadInto d modules file
  let (key, w) ← selectWorkflow m file workflow
  if w.internal && origin ≠ some file then .error (.internal file key)
  else
    match tracker.enter file key with
    | (.error circle, _) => .error (.circular circle)
    | (.ok (), entered) => l.follow d fuel entered file modules (references w.steps)

section GivesBack

variable (hvisit : ∀ (tracker : Tracker) (modules : Fields Module) (file : String)
  (workflow origin : Option String), l.visit d fuel (tracker, modules) file workflow origin =
    (l.walk d fuel tracker modules file workflow origin).map (tracker, ·))

include hvisit

/-- Visits one after the other hand on the tracker, and if each of them gives it back, each has the
one from the beginning. -/
theorem foldlM_visit (texts : List String) :
    texts.foldlM (fun reached text =>
        let (next, workflow) := (Reference.read text).from file
        l.visit d fuel reached next workflow (some file)) (tracker, modules) =
      (l.follow d fuel tracker file modules texts).map (tracker, ·) := by
  induction texts generalizing modules with
  | nil => rfl
  | cons text texts ih =>
    rw [List.foldlM_cons, follow_cons]
    change l.visit d fuel (tracker, modules) (Reference.asked file text).1
      (Reference.asked file text).2 (some file) >>= _ = _
    rw [hvisit]
    rcases l.walk d fuel tracker modules (Reference.asked file text).1
      (Reference.asked file text).2 (some file) with e | modules'
    · rfl
    · exact ih

/-- A workflow that was entered is left again, so a visit gives back the tracker. -/
theorem visit_succ :
    l.visit d (fuel + 1) (tracker, modules) file workflow origin =
      (l.descend d fuel tracker modules file workflow origin).map (tracker, ·) := by
  rw [visit, descend]
  rcases l.loadInto d modules file with e | ⟨m, modules'⟩
  · rfl
  simp only [bind, Except.bind]
  rcases selectWorkflow m file workflow with e | ⟨key, w⟩
  · rfl
  simp only
  split
  · rfl
  by_cases hmem : Reference.key file key ∈ tracker.inProgress
  · rw [Tracker.enter_of_mem hmem]
    rfl
  · rw [Tracker.enter_of_not_mem hmem]
    simp only [foldlM_visit hvisit]
    rcases l.follow d fuel (tracker.entered (Reference.key file key)) file modules'
      (references w.steps) with e | modules''
    · rfl
    · rw [Except.map, Except.map]
      simp only [Tracker.exit_entered hmem]
      rfl

end GivesBack

/-- A visit ends with the tracker it began with. -/
theorem visit_eq (tracker : Tracker) (modules : Fields Module) (file : String)
    (workflow origin : Option String) :
    l.visit d fuel (tracker, modules) file workflow origin =
      (l.walk d fuel tracker modules file workflow origin).map (tracker, ·) := by
  induction fuel generalizing tracker modules file workflow origin with
  | zero => rfl
  | succ fuel ih =>
    rw [walk, visit_succ ih]
    rcases l.descend d fuel tracker modules file workflow origin with e | modules' <;> rfl

theorem walk_succ : l.walk d (fuel + 1) tracker modules file workflow origin =
    l.descend d fuel tracker modules file workflow origin := by
  rw [walk, visit_succ visit_eq]
  rcases l.descend d fuel tracker modules file workflow origin with e | modules' <;> rfl

/-- What a visit of what is asked for can come to. -/
inductive Visit (l : Library) (d : Disk) (docs : Documents) (fuel : Nat) (tracker : Tracker)
    (modules : Fields Module) (file : String) (workflow origin : Option String)
    (r : Except LoadError (Fields Module)) : Prop
  /-- nothing is found -/
  | missing {e : LoadError} (hnone : ∀ a, ¬ docs.Selects file workflow a) (he : e.OfDocument)
      (hr : r = .error e)
  /-- what is found may not be referred to -/
  | internal {a : Address} (hselects : docs.Selects file workflow a)
      (hclosed : ¬ docs.Open origin a) (hr : r = .error (.internal file a.workflow))
  /-- what is found is on the way already -/
  | circular {a : Address} (hselects : docs.Selects file workflow a)
      (hmem : a.key ∈ tracker.inProgress) (hr : r = .error (.circular (tracker.circle a.key)))
  /-- what is found is entered, and its references are followed -/
  | entered {a : Address} {w : Workflow} {modules' : Fields Module}
      (hselects : docs.Selects file workflow a) (hholds : docs.Holds a w)
      (hopen : docs.Open origin a) (hnew : a.key ∉ tracker.inProgress)
      (hloaded : docs.Loaded l d modules')
      (hnames : ∀ name, name ∈ modules'.names ↔ name = a.file ∨ name ∈ modules.names)
      (hr : r = l.follow d fuel (tracker.entered a.key) a.file modules' (references w.steps))

/-- Following what is asked for starts with such a visit. -/
theorem walk_visit (hloaded : docs.Loaded l d modules) (fuel : Nat) (tracker : Tracker)
    (file : String) (workflow origin : Option String) :
    Visit l d docs fuel tracker modules file workflow origin
      (l.walk d (fuel + 1) tracker modules file workflow origin) := by
  rw [walk_succ, descend]
  rcases hdoc : docs file with e | m
  · obtain ⟨hinto, he⟩ := hloaded.loadInto_of_error hdoc
    rw [hinto]
    refine .missing ?_ he rfl
    rintro a ⟨-, m, w, hm, -⟩
    rw [hdoc] at hm
    cases hm
  · obtain ⟨modules', hinto, hloaded', hnames⟩ := hloaded.loadInto_of_ok hdoc
    rw [hinto]
    simp only [bind, Except.bind]
    rcases selectWorkflow_cases m file workflow with ⟨key, w, hselects, hok⟩ | herror
    · have hfound : docs.Selects file workflow ⟨file, key⟩ := ⟨rfl, m, w, hdoc, hselects⟩
      have hholds : docs.Holds ⟨file, key⟩ w := ⟨m, hdoc, hselects.get?_eq⟩
      rw [hok]
      simp only
      split
      · rename_i hinternal
        simp only [Bool.and_eq_true, decide_eq_true_eq] at hinternal
        exact .internal hfound (fun hopen => hinternal.2 (hopen w hholds hinternal.1)) rfl
      · rename_i hinternal
        have hopen : docs.Open origin ⟨file, key⟩ := by
          intro w' hw' hw
          rw [hw'.unique hholds] at hw
          simpa [hw] using hinternal
        by_cases hmem : (Address.mk file key).key ∈ tracker.inProgress
        · rw [Tracker.enter_of_mem hmem]
          exact .circular hfound hmem rfl
        · rw [Tracker.enter_of_not_mem hmem]
          exact .entered hfound hholds hopen hmem hloaded' hnames rfl
    · rw [herror]
      refine .missing (e := .noWorkflow ..) ?_ trivial rfl
      rintro a ⟨-, m', w, hm, hselects⟩
      rw [hdoc, Except.ok.injEq] at hm
      rw [← hm, ← selectWorkflow_eq_ok_iff file, herror] at hselects
      cases hselects

end Library

end WorkflowCompiler
