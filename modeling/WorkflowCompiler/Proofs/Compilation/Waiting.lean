import WorkflowCompiler.Proofs.Compilation.Circles

/-!
# Inline steps wait for their branch

An inline step that needs none of its siblings is given the id of its branch among its needs. The
others need a sibling, and as siblings stand in an order, going on from need to need ends at one
that needs the branch (`CompiledBatch.waitsOutside`). Level by level, every step inside of a branch
waits for the branch (`BranchesFirst`), whatever else it needs.
-/

namespace WorkflowCompiler

open Relation (TransGen ReflTransGen)

/-- Of two siblings, the first one needs the second one. -/
def NeedsSibling (siblings : List CompiledStep) (a b : CompiledStep) : Prop :=
  a ∈ siblings ∧ b ∈ siblings ∧ b.id ∈ a.needs

/-- From every sibling, needs of siblings lead to one that needs what is named. -/
def WaitsOutside (siblings : List CompiledStep) (name : String) : Prop :=
  ∀ c ∈ siblings, ∃ last ∈ siblings,
    ReflTransGen (NeedsSibling siblings) c last ∧ name ∈ last.needs

/-- No step of a tree starts before the branches in which it stands. -/
structure BranchesFirst (out : List CompiledStep) : Prop where
  /-- the inline steps of each outcome of a branch wait for it, through their siblings -/
  waitsOutside : ∀ p, InTree out p → ∀ config o ct, p.config = .branch config →
    config.target? o = some ct → WaitsOutside ct.steps p.id
  /-- a step waits for every step inside of which it stands -/
  waits : ∀ p c, InTree out p → TransGen CompiledStep.Child p c → TransGen (WaitsFor out) c p

/-! ## Siblings -/

section Siblings

variable {settings : RunSettings} {b : Batch} {out : List CompiledStep}

/-- A compiled inline step needs the branch, or a sibling that stands before it. -/
theorem CompiledBatch.needs_parent_or_sibling (h : CompiledBatch settings b out) {parent : String}
    (hparent : b.parent = some parent) {c : CompiledStep} (hc : c ∈ out) :
    parent ∈ c.needs ∨ ∃ d, NeedsSibling out c d ∧
      (out.map (·.id)).idxOf d.id < (out.map (·.id)).idxOf c.id := by
  obtain ⟨s, hs, hfrom⟩ := h.from_step c hc
  have hneeds : c.needs = inlineNeeds parent b.ids s.needs := by
    rw [hfrom.needs_eq, Batch.compiledNeeds, hparent]
  by_cases hsibling : ∃ need ∈ s.needs, need ∈ b.ids
  · obtain ⟨need, hneed, hmem⟩ := hsibling
    obtain ⟨q, hq, rfl⟩ := List.mem_map.1 hmem
    obtain ⟨d, hd, hdfrom⟩ := h.exists_compiled hq
    have hdneed : d.id ∈ c.needs := by
      rw [hneeds, hdfrom.id_eq, Batch.fullId, hparent]
      exact mem_inlineNeeds_iff.2 (.inl ⟨q.id, hneed, hmem, rfl⟩)
    exact .inr ⟨d, ⟨hc, hd, hdneed⟩, h.needs_first c hc d.id hdneed (List.mem_map_of_mem hd)⟩
  · refine .inl ?_
    rw [hneeds]
    refine mem_inlineNeeds_iff.2 (.inr (.inr ⟨rfl, fun need hneed hmem => ?_⟩))
    exact hsibling ⟨need, hneed, hmem⟩

/-- Compiled inline steps wait for their branch. -/
theorem CompiledBatch.waitsOutside (h : CompiledBatch settings b out) {parent : String}
    (hparent : b.parent = some parent) : WaitsOutside out parent := by
  intro c hc
  -- by induction on the place of the step among its siblings
  induction hplace : (out.map (·.id)).idxOf c.id using Nat.strong_induction_on generalizing c with
  | _ place ih =>
    subst hplace
    rcases h.needs_parent_or_sibling hparent hc with hneed | ⟨d, hneeds, hlt⟩
    · exact ⟨c, hc, .refl, hneed⟩
    · obtain ⟨last, hlast, hway, hneed⟩ := ih _ hlt d hneeds.2.1 rfl
      exact ⟨last, hlast, .head hneeds hway, hneed⟩

/-- So do those of each outcome of a compiled step. -/
theorem CompiledFrom.waitsOutside {id : String} {needs : List String} {s : Step}
    {c : CompiledStep} (h : CompiledFrom settings id needs s c) {config : BranchConfig CompiledStep}
    (hc : c.config = .branch config) {o : Outcome} {ct : CompiledTarget CompiledStep}
    (hct : config.target? o = some ct) : WaitsOutside ct.steps c.id := by
  obtain ⟨cl, -, hconfig⟩ := h.config
  rw [hc] at hconfig
  have hyields := outcome_of_yields hconfig o
  rw [hct] at hyields
  obtain ⟨t, -, hsteps⟩ := steps_of_outcome_yields hyields
  by_cases hinline : t.inline = []
  · rw [if_pos hinline] at hsteps
    rw [hsteps]
    intro c hc
    cases hc
  · rw [if_neg hinline, ← h.id_eq] at hsteps
    exact (CompiledBatch.of_inline_yields hsteps []).waitsOutside rfl

end Siblings

/-! ## Trees -/

section Trees

variable {out : List CompiledStep}

theorem InTree.child {p c : CompiledStep} (hp : InTree out p) (hchild : p.Child c) :
    InTree out c := by
  obtain ⟨root, hroot, hway⟩ := hp
  exact ⟨root, hroot, hway.tail hchild⟩

/-- What siblings need of each other they wait for in the tree. -/
theorem waitsFor_of_needsSibling {siblings : List CompiledStep}
    (htree : ∀ c ∈ siblings, InTree out c) {a b : CompiledStep}
    (h : ReflTransGen (NeedsSibling siblings) a b) : ReflTransGen (WaitsFor out) a b :=
  ReflTransGen.mono (fun _ _ hneeds => ⟨htree _ hneeds.1, htree _ hneeds.2.1, hneeds.2.2⟩) _ _ h

/-- If the inline steps of each branch wait for it, no step starts before a branch in which it
stands. -/
theorem branchesFirst_of_waitsOutside
    (h : ∀ p, InTree out p → ∀ config o ct, p.config = .branch config →
      config.target? o = some ct → WaitsOutside ct.steps p.id) : BranchesFirst out := by
  have hchild : ∀ {p c}, InTree out p → p.Child c → TransGen (WaitsFor out) c p := by
    rintro p c hp ⟨config, o, ct, hconfig, hct, hc⟩
    have htree : ∀ d ∈ ct.steps, InTree out d := fun d hd =>
      hp.child ⟨config, o, ct, hconfig, hct, hd⟩
    obtain ⟨last, hlast, hway, hneed⟩ := h p hp config o ct hconfig hct c hc
    exact .tail' (waitsFor_of_needsSibling htree hway) ⟨htree last hlast, hp, hneed⟩
  refine ⟨h, fun p c hp hway => ?_⟩
  induction hway with
  | single hstep => exact hchild hp hstep
  | tail hway hstep ih =>
    obtain ⟨root, hroot, habove⟩ := hp
    exact (hchild ⟨root, hroot, habove.trans hway.to_reflTransGen⟩ hstep).trans ih

/-- Compiled siblings start after the branches in which they stand, with all that is inside of
them. -/
theorem CompiledBatch.branchesFirst {settings : RunSettings} {b : Batch}
    (h : CompiledBatch settings b out) : BranchesFirst out := by
  refine branchesFirst_of_waitsOutside fun p hp config o ct hconfig hct => ?_
  obtain ⟨inner, -, s, -, hfrom⟩ := h.exists_below hp
  exact hfrom.waitsOutside hconfig hct

/-- All steps of a tree wait for what its outermost steps wait for. -/
theorem BranchesFirst.exists_last {name : String} (h : BranchesFirst out)
    (houter : WaitsOutside out name) {c : CompiledStep} (hc : InTree out c) :
    ∃ last, ReflTransGen (WaitsFor out) c last ∧ name ∈ last.needs := by
  obtain ⟨root, hroot, hway⟩ := hc
  have htree : ∀ d ∈ out, InTree out d := fun d hd => ⟨d, hd, .refl⟩
  obtain ⟨last, -, hlast, hneed⟩ := houter root hroot
  refine ⟨last, .trans ?_ (waitsFor_of_needsSibling htree hlast), hneed⟩
  rcases Relation.reflTransGen_iff_eq_or_transGen.1 hway with rfl | hinside
  · exact .refl
  · exact (h.waits root c (htree root hroot) hinside).to_reflTransGen

end Trees

/-- In what a workflow compiles to, no step starts before the branches in which it stands. The same
holds of inline steps that are compiled by themselves, and all of these wait for the branch under
whose id they are compiled, those among them that stand outside of other branches through each
other. -/
theorem Compiler.branches_first (c : Compiler) :
    (∀ (d : Disk) (w : Workflow) (inputs : Fields String) (out : List CompiledStep),
      (c.compile d w inputs).1 = .ok out → BranchesFirst out) ∧
    ∀ (steps : List Step) (parent : String) (out : List CompiledStep),
      (c.compileInline steps parent).1 = .ok out →
        BranchesFirst out ∧ WaitsOutside out parent ∧ ∀ s, InTree out s →
          ∃ last, ReflTransGen (WaitsFor out) s last ∧ parent ∈ last.needs := by
  constructor
  · intro d w inputs out h
    exact (CompiledBatch.of_workflow_yields (yields_of_compile h)).2.branchesFirst
  · intro steps parent out h
    have hbatch := CompiledBatch.of_inline_yields (Attempt.yields_of_fst_eq_ok h) []
    have houter : WaitsOutside out parent := hbatch.waitsOutside rfl
    exact ⟨hbatch.branchesFirst, houter, fun s hs => hbatch.branchesFirst.exists_last houter hs⟩

/-- The inline step of a branch that is itself an inline step. -/
def stagedNotice : Step :=
  { id := "notify", executor := some "shell", command := some "make notice" }

/-- A branch that needs its sibling. -/
def stagedShip : Step :=
  { id := "ship", executor := some "branch", condition := some "make verify", needs := ["build"],
    onTrue := some { inline := [stagedNotice] } }

/-- The inline steps of a branch. -/
def stagedSteps : List Step :=
  [stagedShip, { id := "build", executor := some "shell", command := some "make" }]

/-- A workflow of a branch with these inline steps. -/
def stagedWorkflow : Workflow :=
  { name := "staged"
    steps :=
      [{ id := "check", executor := some "branch", condition := some "make test",
         onTrue := some { inline := stagedSteps } }] }

/-- The batch of the inline steps. -/
def stagedBatch : Batch where
  parent := some "check"
  outer := ["check"]
  steps := stagedSteps

/-- The innermost step of the workflow waits for the outermost one, and compiled by themselves the
inline steps wait for the branch that is named. -/
theorem stagedWorkflow_branches_first :
    (∃ out, ((Compiler.mk { workflowId := "run" } {}).compile {} stagedWorkflow []).1 = .ok out ∧
      ∃ p ∈ out, ∃ c, c.id = "check.ship.notify" ∧ TransGen (WaitsFor out) c p) ∧
    ∃ out, ((Compiler.mk { workflowId := "run" } {}).compileInline stagedSteps "gate").1 = .ok out ∧
      WaitsOutside out "gate" := by
  have hbranches := Compiler.branches_first (Compiler.mk { workflowId := "run" } {})
  constructor
  · obtain ⟨out, hout⟩ := Option.isSome_iff_exists.1 (show ((Compiler.mk { workflowId := "run" }
      {}).compile {} stagedWorkflow []).1.toOption.isSome = true by decide +kernel)
    have hok := Attempt.eq_ok_of_toOption_eq_some hout
    have hbatch := (CompiledBatch.of_workflow_yields (yields_of_compile hok)).2
    have hunder : stagedWorkflow.topBatch.UnderBranch stagedBatch :=
      ⟨_, List.mem_cons_self, ⟨⟨.branch, false, none⟩, rfl, rfl⟩, .onTrue, _, rfl,
        List.cons_ne_nil _ _, rfl⟩
    have hship : stagedBatch.UnderBranch
        (stagedBatch.inside stagedShip { inline := [stagedNotice] }) :=
      ⟨stagedShip, List.mem_cons_self, ⟨⟨.branch, false, none⟩, rfl, rfl⟩, .onTrue, _, rfl,
        List.cons_ne_nil _ _, rfl⟩
    obtain ⟨c, ⟨p, hp, hway⟩, hfrom⟩ :=
      hbatch.exists_inTree (.tail (.single hunder) hship) (s := stagedNotice) List.mem_cons_self
    refine ⟨out, hok, p, hp, c, hfrom.id_eq, ?_⟩
    obtain ⟨s, hs, hpfrom⟩ := hbatch.from_step p hp
    have hne : c ≠ p := by
      rintro rfl
      have hid := hfrom.id_eq.symm.trans hpfrom.id_eq
      rw [List.mem_singleton.1 hs] at hid
      exact absurd hid (by decide)
    refine (hbranches.1 _ _ _ _ hok).waits p c ⟨p, hp, .refl⟩ ?_
    exact (Relation.reflTransGen_iff_eq_or_transGen.1 hway).resolve_left hne
  · obtain ⟨out, hout⟩ := Option.isSome_iff_exists.1 (show ((Compiler.mk { workflowId := "run" }
      {}).compileInline stagedSteps "gate").1.toOption.isSome = true by decide +kernel)
    have hok := Attempt.eq_ok_of_toOption_eq_some hout
    exact ⟨out, hok, (hbranches.2 _ _ _ hok).2.1⟩

end WorkflowCompiler
