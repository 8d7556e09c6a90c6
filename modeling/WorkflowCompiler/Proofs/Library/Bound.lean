import Mathlib.Data.List.Perm.Subperm
import Mathlib.Data.List.ProdSigma
import WorkflowCompiler.Proofs.Library.Trees

/-!
# Following references comes to an end

On the way from the root no key stands twice, and each one is made of a name by which a document is
asked for and of the key of a workflow that there is. There are finitely many of both
(`Library.possibleKeys`), and the bound on the length of a way is larger than their number. So the
bound is never met (`Library.walk_ne_endless`), and a larger one changes nothing
(`Library.walk_of_le`).
-/

namespace WorkflowCompiler

/-- What is read from a disk is the text of one of its files. -/
theorem Disk.exists_mem_of_readText {d : Disk} {path text : String}
    (h : d.readText path = .ok text) : ∃ place, (place, .file (.text text)) ∈ d.entries := by
  rw [readText] at h
  rcases hlocate : d.locate path with e | entry
  · rw [hlocate] at h
    cases h
  · have hentry : entry = .file (.text text) := by
      rw [hlocate] at h
      rcases entry with ⟨s | _ | _⟩ | _
      · cases h
        rfl
      all_goals cases h
    rw [locate] at hlocate
    rcases htarget : d.target path with e | place
    · rw [htarget] at hlocate
      cases hlocate
    · rw [htarget] at hlocate
      rcases hat : d.at? place with _ | found
      · simp only [bind, Except.bind, hat] at hlocate
        cases hlocate
      · simp only [bind, Except.bind, hat, pure, Except.pure, Except.ok.injEq] at hlocate
        rw [at?] at hat
        rcases hlookup : d.entryAt? place with _ | found'
        · -- where no entry is there can be a directory only
          rw [hlookup] at hat
          rw [hlocate, hentry] at hat
          simp only [Option.ite_none_right_eq_some] at hat
          cases hat.2
        · rw [hlookup] at hat
          obtain ⟨before, after, hsplit, -⟩ := List.lookup_eq_some_iff.1 hlookup
          refine ⟨place, ?_⟩
          rw [hsplit, ← hentry, ← hlocate, ← Option.some.inj hat]
          exact List.mem_append_right _ List.mem_cons_self

namespace Library

variable {l : Library} {d : Disk} {given : Fields Module}

/-- The workflows that there are, with their keys. -/
def possibleWorkflows (l : Library) (d : Disk) (given : Fields Module) : Fields Workflow :=
  (l.reachableModules d given).flatMap Module.workflows

/-- The names by which documents are asked for, first from outside and then by workflows. -/
def possibleNames (l : Library) (d : Disk) (given : Fields Module) (file : String) : List String :=
  file :: (l.possibleWorkflows d given).flatMap fun entry =>
    (references entry.2.steps).map fun text => (Reference.asked file text).1

/-- The keys that a way can have. -/
def possibleKeys (l : Library) (d : Disk) (given : Fields Module) (file : String) : List String :=
  (l.possibleNames d given file ×ˢ (l.possibleWorkflows d given).names).map fun pair =>
    Reference.key pair.1 pair.2

theorem length_possibleKeys_lt (l : Library) (d : Disk) (given : Fields Module) (file : String) :
    (l.possibleKeys d given file).length < l.walkBound d given := by
  have hworkflows : (l.reachableModules d given).flatMap (fun m => m.workflows.map Prod.snd) =
      (l.possibleWorkflows d given).map Prod.snd := by
    rw [possibleWorkflows, List.map_flatMap]
  have hnames : ∀ entries : Fields Workflow, ((entries.map Prod.snd).foldr
      (fun w rest => (references w.steps).length + rest) 1) = (file :: entries.flatMap fun entry =>
        (references entry.2.steps).map fun text => (Reference.asked file text).1).length := by
    intro entries
    induction entries with
    | nil => rfl
    | cons entry entries ih =>
      rw [List.map_cons, List.foldr_cons, ih, List.flatMap_cons, List.length_cons,
        List.length_cons, List.length_append, List.length_map]
      omega
  rw [walkBound]
  simp only [hworkflows]
  rw [hnames, possibleKeys, List.length_map, List.length_product, possibleNames, Fields.names,
    List.length_map, List.length_map]
  omega

/-- What a name stands for has workflows that there are. -/
theorem mem_possibleWorkflows {name : String} {m : Module}
    (h : l.documents d given name = .ok m) {entry : String × Workflow}
    (hentry : entry ∈ m.workflows) : entry ∈ l.possibleWorkflows d given := by
  -- what is read from a text is among the modules of all texts, but for its path
  have hread : ∀ {text m'}, readNamed name text = .ok m' → entry ∈ m'.workflows →
      (∃ place, (place, .file (.text text)) ∈ d.entries) ∨ text ∈ l.embedded.map Prod.snd →
      entry ∈ l.possibleWorkflows d given := by
    intro text m' hm' hmem htext
    rw [readNamed] at hm'
    rcases hmodule : Module.read text with e | m₀
    · rw [hmodule] at hm'
      cases hm'
    · rw [hmodule] at hm'
      cases hm'
      refine List.mem_flatMap.2 ⟨m', ?_, hmem⟩
      rw [reachableModules]
      refine List.mem_append_left _ (List.mem_filterMap.2 ⟨text, ?_, by rw [hmodule]; rfl⟩)
      rcases htext with ⟨place, hplace⟩ | htext
      · exact List.mem_append_left _ (List.mem_filterMap.2 ⟨_, hplace, rfl⟩)
      · exact List.mem_append_right _ htext
  rw [documents] at h
  split at h
  · rename_i m' hgiven
    cases h
    refine List.mem_flatMap.2 ⟨m, List.mem_append_right _ ?_, hentry⟩
    exact List.mem_map_of_mem (Fields.mem_of_get?_eq_some hgiven)
  · rw [load] at h
    split at h
    · rename_i path hpath
      split at h
      · cases h
      · rename_i text htext
        rcases hnamed : readNamed name text with e | m'
        · rw [hnamed] at h
          cases h
        · rw [hnamed] at h
          cases h
          exact hread hnamed hentry (.inl (Disk.exists_mem_of_readText htext))
    · split at h
      · rename_i text htext
        exact hread h hentry (.inr (List.mem_map_of_mem (Fields.mem_of_get?_eq_some htext)))
      · cases h

/-- A workflow asks for documents by names that were counted. -/
theorem asked_mem_possibleNames {root file : String} (hfile : file ∈ l.possibleNames d given root)
    {entry : String × Workflow} (hentry : entry ∈ l.possibleWorkflows d given) {text : String}
    (htext : text ∈ references entry.2.steps) :
    (Reference.asked file text).1 ∈ l.possibleNames d given root := by
  rcases hread : Reference.read text with name | ⟨next, workflow⟩
  · rw [Reference.asked, hread]
    exact hfile
  · have hnext : (Reference.asked file text).1 = (Reference.asked root text).1 := by
      rw [Reference.asked, Reference.asked, hread]
      rfl
    rw [hnext]
    exact List.mem_cons_of_mem _ (List.mem_flatMap.2 ⟨entry, hentry, List.mem_map_of_mem htext⟩)

/-- Following references does not come to the end of its bound, as long as the keys on the way
differ and what is left of the bound is more than the keys that are left. -/
theorem walk_ne_endless {fuel : Nat} {tracker : Tracker} {modules : Fields Module}
    {root file : String} {workflow origin : Option String}
    (hloaded : (l.documents d given).Loaded l d modules)
    (hfile : file ∈ l.possibleNames d given root) (hnodup : tracker.inProgress.Nodup)
    (hkeys : tracker.inProgress ⊆ l.possibleKeys d given root)
    (hfuel : (l.possibleKeys d given root).length < fuel + tracker.inProgress.length) :
    l.walk d fuel tracker modules file workflow origin ≠ .error .endless := by
  induction fuel generalizing tracker modules file workflow origin with
  | zero =>
    have hlength := (List.subperm_of_subset hnodup hkeys).length_le
    omega
  | succ fuel ih =>
    intro h
    have hvisit := walk_visit hloaded fuel tracker file workflow origin
    rw [h] at hvisit
    cases hvisit with
    | missing _ he hr =>
      cases hr
      exact he
    | internal _ _ hr => cases hr
    | circular _ _ hr => cases hr
    | @entered a w modules' hselects hholds _ hnew hloaded' _ hr =>
      obtain ⟨hafile, m, w', hm, hw'⟩ := hselects
      subst hafile
      have hentry : (a.workflow, w') ∈ l.possibleWorkflows d given :=
        mem_possibleWorkflows hm (Fields.mem_of_get?_eq_some hw'.get?_eq)
      have hww : w = w' := hholds.unique ⟨m, hm, hw'.get?_eq⟩
      have hkey : a.key ∈ l.possibleKeys d given root :=
        List.mem_map.2 ⟨(a.file, a.workflow), List.pair_mem_product.2
          ⟨hfile, List.mem_map_of_mem hentry⟩, rfl⟩
      obtain ⟨text, htext, modules₁, hloaded₁, herror⟩ := exists_of_follow_eq_error hloaded' hr.symm
      refine ih hloaded₁ ?_ ?_ ?_ ?_ herror
      · exact asked_mem_possibleNames hfile hentry (hww ▸ htext)
      · exact List.nodup_cons.2 ⟨hnew, hnodup⟩
      · exact List.cons_subset.2 ⟨hkey, hkeys⟩
      · rw [Tracker.entered, List.length_cons]
        omega

/-- The bound on the length of a way is never met. -/
theorem walk_walkBound_ne_endless (l : Library) (d : Disk) (given : Fields Module) (file : String)
    (workflow : Option String) :
    l.walk d (l.walkBound d given) {} given file workflow none ≠ .error .endless :=
  walk_ne_endless (l.loaded_given d given) List.mem_cons_self List.nodup_nil
    (List.nil_subset _) (l.length_possibleKeys_lt d given file)

/-! ## Larger bounds -/

section LargerBounds

variable {fuel fuel' : Nat} {tracker : Tracker} {modules : Fields Module} {file : String}
  {workflow origin : Option String}

/-- References that are followed to their end within a bound are followed alike within a larger
one, if this is so for each of them. -/
theorem follow_of_le
    (hwalk : ∀ {modules name workflow origin},
      l.walk d fuel tracker modules name workflow origin ≠ .error .endless →
      l.walk d fuel' tracker modules name workflow origin =
        l.walk d fuel tracker modules name workflow origin)
    {texts : List String} (h : l.follow d fuel tracker file modules texts ≠ .error .endless) :
    l.follow d fuel' tracker file modules texts = l.follow d fuel tracker file modules texts := by
  induction texts generalizing modules with
  | nil => rfl
  | cons text texts ih =>
    rw [follow_cons] at h
    rw [follow_cons, follow_cons]
    rcases hfirst : l.walk d fuel tracker modules (Reference.asked file text).1
      (Reference.asked file text).2 (some file) with e | modules₁
    · rw [hfirst] at h
      rw [hwalk (by rw [hfirst]; exact h), hfirst]
      rfl
    · rw [hfirst] at h
      rw [hwalk (by rw [hfirst]; exact nofun), hfirst]
      exact ih h

/-- What is followed to its end within a bound is followed alike within a larger one. -/
theorem walk_of_le (hle : fuel ≤ fuel')
    (h : l.walk d fuel tracker modules file workflow origin ≠ .error .endless) :
    l.walk d fuel' tracker modules file workflow origin =
      l.walk d fuel tracker modules file workflow origin := by
  induction fuel generalizing fuel' tracker modules file workflow origin with
  | zero => exact absurd rfl h
  | succ fuel ih =>
    obtain ⟨fuel', rfl⟩ : ∃ more, fuel' = more + 1 := ⟨fuel' - 1, by omega⟩
    rw [walk_succ, descend] at h
    rw [walk_succ, walk_succ, descend, descend]
    rcases hinto : l.loadInto d modules file with e | ⟨m, modules₁⟩
    · rfl
    · rw [hinto] at h
      simp only [bind, Except.bind] at h ⊢
      rcases hfound : selectWorkflow m file workflow with e | ⟨key, w⟩
      · rfl
      · rw [hfound] at h
        simp only at h ⊢
        split
        · rfl
        · rename_i hinternal
          rw [if_neg hinternal] at h
          rcases henter : tracker.enter file key with ⟨circle | _, entered⟩
          · rfl
          · rw [henter] at h
            exact follow_of_le (fun hends => ih (by omega) hends) h

end LargerBounds

end Library

namespace TreeStart

variable {l : Library} {d : Disk} {start : TreeStart}

/-- Loading a tree comes to an end. -/
theorem load_ne_endless (l : Library) (d : Disk) (start : TreeStart) :
    start.load l d ≠ .error .endless := by
  rcases hasked : start.asked? with _ | ⟨file, workflow⟩
  · obtain ⟨text, herror⟩ := load_of_not_asked (l := l) (d := d) hasked
    rw [herror]
    exact nofun
  · rw [Ne, load_eq_error_iff hasked]
    exact l.walk_walkBound_ne_endless d start.given file workflow

/-- Loading a tree follows what is asked for to its end: with a larger bound it comes to the
same. -/
theorem load_of_walkBound_le {file : String} {workflow : Option String} {fuel : Nat}
    (hasked : start.asked? = some (file, workflow)) (hle : l.walkBound d start.given ≤ fuel) :
    start.load l d =
      (l.walk d fuel {} start.given file workflow none).map fun modules =>
        { root := file, modules } := by
  rw [load_of_asked hasked,
    Library.walk_of_le hle (l.walk_walkBound_ne_endless d start.given file workflow)]

end TreeStart

end WorkflowCompiler
