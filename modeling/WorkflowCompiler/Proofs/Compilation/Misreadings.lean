import WorkflowCompiler.Proofs.Compilation.Circles
import WorkflowCompiler.Proofs.Compilation.Failures
import WorkflowCompiler.Proofs.Needs.Progress

/-!
# Circles that a validation does not see

A validation looks for circles among the ids that are written in a batch, but a batch is put in
order by the ids under which its steps are compiled. A need that is the id of a sibling is
changed along with it, so that the circles stay the same. Any other need stays as it stands, and
may by chance be the id under which a sibling is compiled: it is misread (`Batch.Misreads`). In
a workflow without findings it is only such a need that closes a circle, and compiling fails for
none exactly where no misread need closes one (`Workflow.circles_ruled_out_iff`).
-/

namespace WorkflowCompiler

open Attempt
open Relation (TransGen ReflTransGen)

namespace Batch

/-- One sibling needs another one once they are compiled. -/
def CompiledNeeds (b : Batch) (x y : String) : Prop :=
  ∃ s ∈ b.steps, b.fullId s = x ∧ y ∈ b.compiledNeeds s ∧ y ∈ b.steps.map b.fullId

/-- One sibling has a need that is no id of a sibling, but the one under which a sibling is
compiled. -/
def Misreads (b : Batch) (x y : String) : Prop :=
  ∃ s ∈ b.steps, b.fullId s = x ∧ y ∈ s.needs ∧ y ∉ b.ids ∧ y ∈ b.steps.map b.fullId

/-- In some session the siblings are compiled, if not put in order. -/
def MembersCompile (b : Batch) : Prop :=
  ∃ settings compiled, (b.compileMembers settings).Yields compiled

/-- In some session the batch is not compiled because steps need each other. -/
def MeetsCircle (b : Batch) : Prop :=
  ∃ settings path, (b.compile settings).Fails (.cycle path)

variable {b : Batch} {x y : String}

/-! ## Needs of compiled siblings -/

/-- Compiled siblings need what they need by their ids, and what they misread. -/
theorem compiledNeeds_iff :
    b.CompiledNeeds x y ↔
      b.Misreads x y ∨
        ∃ p q, b.Needs p q ∧ x = WorkflowCompiler.fullId b.parent p ∧
          y = WorkflowCompiler.fullId b.parent q := by
  obtain ⟨parent, outer, steps⟩ := b
  cases parent with
  | none =>
    -- the ids stay as they are
    have hids : steps.map (fullId { outer, steps }) = steps.map (·.id) := rfl
    constructor
    · rintro ⟨s, hs, rfl, hneed, hmem⟩
      exact .inr ⟨s.id, y, ⟨s, hs, rfl, hneed, hmem⟩, rfl, rfl⟩
    · rintro (⟨s, hs, -, -, hother, hmem⟩ | ⟨p, q, ⟨s, hs, rfl, hneed, hmem⟩, rfl, rfl⟩)
      · exact absurd hmem hother
      · exact ⟨s, hs, rfl, hneed, hmem⟩
  | some parent =>
    simp only [CompiledNeeds, compiledNeeds, mem_inlineNeeds_iff]
    constructor
    · rintro ⟨s, hs, rfl, ⟨q, hq, hmem, rfl⟩ | ⟨hneed, hother⟩ | ⟨rfl, -⟩, hfull⟩
      · exact .inr ⟨s.id, q, ⟨s, hs, rfl, hq, hmem⟩, rfl, rfl⟩
      · exact .inl ⟨s, hs, rfl, hneed, hother, hfull⟩
      · obtain ⟨q, -, hq⟩ := List.mem_map.1 hfull
        exact absurd hq (fullId_ne_parent y q.id)
    · rintro (⟨s, hs, rfl, hneed, hother, hfull⟩ | ⟨p, q, ⟨s, hs, rfl, hneed, hmem⟩, rfl, rfl⟩)
      · exact ⟨s, hs, rfl, .inr (.inl ⟨hneed, hother⟩), hfull⟩
      · refine ⟨s, hs, rfl, .inl ⟨q, hneed, hmem, rfl⟩, ?_⟩
        rw [map_fullId]
        exact List.mem_map_of_mem hmem

/-- If no sibling needs itself, only misread needs close circles of compiled siblings. -/
theorem no_circle_iff_of_acyclic (hacyclic : ∀ id, ¬ TransGen b.Needs id id) :
    (∀ x, ¬ TransGen b.CompiledNeeds x x) ↔
      ∀ x y, b.Misreads x y → ¬ ReflTransGen b.CompiledNeeds y x := by
  have hgood : ∀ x, ¬ TransGen (fun x y => b.CompiledNeeds x y ∧ ¬ b.Misreads x y) x x := by
    intro x hcircle
    -- a circle of the other needs is one of the ids as they are written
    have hwritten : ∀ {x y}, b.CompiledNeeds x y ∧ ¬ b.Misreads x y →
        ∃ p q, b.Needs p q ∧ x = WorkflowCompiler.fullId b.parent p ∧
          y = WorkflowCompiler.fullId b.parent q :=
      fun h => (compiledNeeds_iff.1 h.1).resolve_left h.2
    obtain ⟨y, hxy, -⟩ := TransGen.head'_iff.1 hcircle
    obtain ⟨p, q, -, hp, -⟩ := hwritten hxy
    refine hacyclic p (transGen_of_shown (fun x p => x = WorkflowCompiler.fullId b.parent p)
      (fun h => ?_) (fun h hx hy => ?_) hcircle hp hp)
    · obtain ⟨p, q, -, -, hq⟩ := hwritten h
      exact ⟨q, hq⟩
    · obtain ⟨p, q, hneeds, hp, hq⟩ := hwritten h
      rw [← fullId_injective b.parent (hp.symm.trans hx),
        ← fullId_injective b.parent (hq.symm.trans hy)]
      exact hneeds
  rw [acyclic_iff_of_good hgood]
  constructor
  · intro h x y hmisreads
    exact h x y ⟨compiledNeeds_iff.2 (.inl hmisreads), not_not_intro hmisreads⟩
  · rintro h x y ⟨-, hmisreads⟩
    exact h x y (not_not.1 hmisreads)

/-! ## Putting a batch together -/

/-- The graph of compiled siblings has an edge for each need among them. -/
theorem needs_compiledGraph_iff {settings : RunSettings} {compiled : List CompiledStep}
    (h : (b.compileMembers settings).Yields compiled) :
    (compiledGraph compiled).Needs x y ↔ b.CompiledNeeds x y := by
  have hfrom := compiledFrom_of_members_yields h
  have hids : b.steps.map b.fullId = compiled.map (·.id) := by
    rw [← List.forall₂_eq_eq_eq, List.forall₂_map_left_iff, List.forall₂_map_right_iff]
    exact hfrom.imp fun s c hc => hc.id_eq.symm
  rw [compiledGraph, NeedsGraph.needs_ofDeclared, List.map_map, CompiledNeeds, hids]
  constructor
  · rintro ⟨⟨node, hnode, hid, hneed⟩, hmem⟩
    obtain ⟨c, hc, rfl⟩ := List.mem_map.1 hnode
    obtain ⟨s, hs, hcompiled⟩ := exists_of_mem_forall₂ hfrom hc
    exact ⟨s, hs, hcompiled.id_eq.symm.trans hid, hcompiled.needs_eq ▸ hneed, hmem⟩
  · rintro ⟨s, hs, rfl, hneed, hmem⟩
    obtain ⟨c, hc, hcompiled⟩ := exists_of_mem_forall₂ hfrom.flip hs
    refine ⟨⟨(c.id, c.needs), List.mem_map.2 ⟨c, hc, rfl⟩, hcompiled.id_eq, ?_⟩, hmem⟩
    exact hcompiled.needs_eq.symm ▸ hneed

/-- Compiled siblings cannot be put in order exactly when one needs itself. -/
theorem exists_inOrder_eq_error_iff {settings : RunSettings} {compiled : List CompiledStep}
    (h : (b.compileMembers settings).Yields compiled) :
    (∃ path, inOrder compiled = .error (.cycle path)) ↔ ¬ ∀ x, ¬ TransGen b.CompiledNeeds x x := by
  have hneeds : (compiledGraph compiled).Needs = b.CompiledNeeds := by
    funext x y
    exact propext (needs_compiledGraph_iff h)
  simp only [inOrder_eq_error_iff, NeedsGraph.exists_order_iff_acyclic (closed_compiledGraph _),
    NeedsGraph.Acyclic, hneeds, exists_and_left, CompileError.cycle.injEq, exists_eq, and_true]

theorem checkInline_of_wellFormed {w : Workflow} (hrules : b.WellFormed w) (parent : String) :
    checkInline parent b.steps = .ok () := by
  have hnone : firstRepeated? [] (b.steps.map (·.id)) = none :=
    firstRepeated?_eq_none_iff.2 ⟨hrules.ids_distinct, by simp⟩
  have hcycles : (NeedsGraph.ofSteps b.steps).findCycles = [] :=
    findCycles_ofSteps_eq_nil_iff.2 hrules.acyclic
  rw [checkInline, hnone, hcycles]

/-- A batch that keeps the rules and whose compiled siblings have a circle is not put in order. -/
theorem meetsCircle_of_circle {w : Workflow} (hrules : b.WellFormed w) (hmembers : b.MembersCompile)
    (hcircle : TransGen b.CompiledNeeds x x) : b.MeetsCircle := by
  obtain ⟨settings, compiled, s, s', hcompiled⟩ := hmembers
  obtain ⟨path, hpath⟩ :=
    (exists_inOrder_eq_error_iff ⟨s, s', hcompiled⟩).2 fun hnone => hnone x hcircle
  have horder : (b.compileMembers settings >>= fun compiled => ofExcept (inOrder compiled)) s =
      (.error (.cycle path), s') := by
    rw [bind_apply_of_ok hcompiled, ofExcept_apply, hpath]
  refine ⟨settings, path, s, s', ?_⟩
  obtain ⟨parent, outer, steps⟩ := b
  cases parent with
  | none => exact horder
  | some parent =>
    have hcheck : (ofExcept (checkInline parent steps) : Compiling Unit) s = (.ok (), s) := by
      rw [ofExcept_apply, checkInline_of_wellFormed hrules]
    exact (bind_apply_of_ok hcheck _).trans horder

end Batch

/-! ## Workflows -/

section Workflows

variable {w : Workflow}

/-- No misread need of a batch that can be compiled closes a circle. -/
def Workflow.ReadsWell (w : Workflow) : Prop :=
  ∀ b, w.HasBatch b → b.MembersCompile →
    ∀ x y, b.Misreads x y → ¬ ReflTransGen b.CompiledNeeds y x

/-- A batch of a workflow without findings that reads well is put together without a circle. -/
theorem Workflow.ReadsWell.assembles (h : w.ReadsWell) (hfindings : w.findings = []) {b : Batch}
    (hbatch : w.HasBatch b) (settings : RunSettings) :
    b.Assembles settings fun e => ∃ path, e = .cycle path where
  check := by
    intro parent _ e he
    rw [Batch.checkInline_of_wellFormed (Workflow.wellFormed_of_hasBatch hfindings hbatch)] at he
    cases he
  order := by
    rintro compiled hyields e he ⟨path, rfl⟩
    refine (Batch.exists_inOrder_eq_error_iff hyields).1 ⟨path, he⟩ ?_
    have hrules := Workflow.wellFormed_of_hasBatch hfindings hbatch
    exact (Batch.no_circle_iff_of_acyclic hrules.acyclic).2
      (h b hbatch ⟨settings, compiled, hyields⟩)

/-- So its steps compile, under the ids they have there. -/
theorem Workflow.ReadsWell.compilable (h : w.ReadsWell) (hfindings : w.findings = [])
    (settings : RunSettings) :
    Compilable settings (fun e => ∃ path, e = .cycle path) fun id s =>
      ∃ b, w.HasBatch b ∧ s ∈ b.steps ∧ id = b.fullId s where
  elsewhere := by
    rintro e ⟨path, rfl⟩ hfield
    exact hfield
  meetsRules := by
    rintro id s ⟨b, hbatch, hs, -⟩
    exact ((Workflow.wellFormed_of_hasBatch hfindings hbatch).steps s hs).meetsRules
  inline := by
    rintro id s ⟨b, hbatch, hs, rfl⟩ o t ht i hi
    have hinside : b.Inside (b.inside s t) := ⟨s, hs, o, t, ht, List.ne_nil_of_mem hi, rfl⟩
    exact ⟨b.inside s t, hbatch.tail hinside, hi, rfl⟩
  assembles := by
    rintro id s ⟨b, hbatch, hs, rfl⟩ o t ht hinline
    have hinside : b.Inside (b.inside s t) := ⟨s, hs, o, t, ht, hinline, rfl⟩
    have hassembles := h.assembles hfindings (hbatch.tail hinside) settings
    exact ⟨hassembles.check, hassembles.order⟩

theorem Workflow.ReadsWell.avoids_compile (h : w.ReadsWell) (hfindings : w.findings = [])
    {b : Batch} (hbatch : w.HasBatch b) (settings : RunSettings) :
    (b.compile settings).Avoids fun e => ∃ path, e = .cycle path :=
  avoids_compile_batch
    (fun _ hs => (h.compilable hfindings settings).avoids_compileStep ⟨b, hbatch, hs, rfl⟩)
    (h.assembles hfindings hbatch settings)

/-- A workflow that, if it has no findings, reads well, does not fail because of a circle. -/
theorem Workflow.compile_ne_cycle (h : w.findings = [] → w.ReadsWell) (c : Compiler) (d : Disk)
    (inputs : Fields String) (path : List String) :
    (c.compile d w inputs).1 ≠ .error (.cycle path) := by
  intro hpath
  have havoids : (compileWorkflow c.settings d w inputs).Avoids
      fun e => ∃ path, e = .cycle path := by
    refine avoids_compileWorkflow_of_batch ?_ ?_ fun hfindings => ?_
    · rintro e hvariable ⟨path, rfl⟩
      exact hvariable
    · rintro - ⟨path, hpath⟩
      cases hpath
    · exact (h hfindings).avoids_compile hfindings .refl _
  rw [Compiler.compile, ensuring_apply] at hpath
  exact havoids _ (fails_of_fst_eq_error hpath) ⟨path, rfl⟩

/-- If circles are met only in workflows with findings, those without findings read well. -/
theorem Workflow.readsWell_of_rejected (h : ∀ b, w.HasBatch b → b.MeetsCircle → w.Rejected)
    (hfindings : w.findings = []) : w.ReadsWell := by
  intro b hbatch hmembers x y hmisreads hback
  have hcircle : TransGen b.CompiledNeeds x x :=
    .head' (Batch.compiledNeeds_iff.2 (.inl hmisreads)) hback
  have hrules := Workflow.wellFormed_of_hasBatch hfindings hbatch
  exact (h b hbatch (Batch.meetsCircle_of_circle hrules hmembers hcircle)).1 hfindings

/-- No workflow fails to compile because of a circle, and one with a batch, at any depth, that
would fail to compile because of one is rejected because of its findings, exactly if no misread
need closes a circle in a workflow without findings. -/
theorem Workflow.circles_ruled_out_iff (w : Workflow) :
    ((∀ (c : Compiler) (d : Disk) (inputs : Fields String) (path : List String),
        (c.compile d w inputs).1 ≠ .error (.cycle path)) ∧
      ∀ b, w.HasBatch b → b.MeetsCircle → w.Rejected) ↔
    (w.findings = [] → w.ReadsWell) := by
  constructor
  · rintro ⟨-, hrejected⟩
    exact Workflow.readsWell_of_rejected hrejected
  · intro hreads
    refine ⟨Workflow.compile_ne_cycle hreads, ?_⟩
    rintro b hbatch ⟨settings, path, hfails⟩
    refine Workflow.rejected_of_findings_ne_nil fun hfindings => ?_
    exact (hreads hfindings).avoids_compile hfindings hbatch settings _ hfails ⟨path, rfl⟩

end Workflows

/-- A branch and its inline steps, of which the last one is needed under the id with which it is
compiled. In the batch this id names a child of the inline step that puts in a workflow. -/
def shippingBranch : Step :=
  { id := "check", executor := some "branch", condition := some "make test",
    onTrue := some
      { inline :=
          [{ id := "check", executor := some "expand", template := some "audit" },
            { id := "report", executor := some "shell", command := some "make report",
              needs := ["check.ship"] },
            { id := "ship", executor := some "shell", command := some "make ship",
              needs := ["report"] }] } }

/-- A workflow whose only step is such a branch. -/
def shippingWorkflow : Workflow := { name := "release", steps := [shippingBranch] }

/-- It has no findings, and fails to compile because of a circle. -/
theorem shippingWorkflow_circle :
    shippingWorkflow.findings = [] ∧
      ((Compiler.mk { workflowId := "run" } {}).compile {} shippingWorkflow []).1 =
        .error (.cycle ["check.report", "check.ship", "check.report"]) :=
  ⟨by decide +kernel, Attempt.eq_error_of_error?_eq_some (by decide +kernel)⟩

/-! ## Ids without points -/

/-- No id holds a point, and no inline step has the id of one of the workflow's own steps. -/
structure Workflow.PlainIds (w : Workflow) : Prop where
  /-- no id holds a point -/
  no_point : ∀ b, w.HasBatch b → ∀ s ∈ b.steps, '.' ∉ s.id.toList
  /-- inline steps have other ids than the workflow's own steps -/
  inline_differ : ∀ b, w.HasBatch b → b.parent ≠ none → ∀ s ∈ b.steps, s.id ∉ w.topBatch.ids

section PlainIds

variable {w : Workflow} {b : Batch}

/-- The full id of an inline step begins with the id of one of the workflow's own steps. -/
theorem Workflow.fullId_eq_of_inline (hbatch : w.HasBatch b) (hinline : b.parent ≠ none)
    (s : Step) : ∃ r ∈ w.steps, ∃ rest, b.fullId s = r.id ++ "." ++ rest := by
  induction hbatch generalizing s with
  | refl => exact absurd rfl hinline
  | @tail b _ hway hinside ih =>
    obtain ⟨p, hp, o, t, -, -, rfl⟩ := hinside
    rw [Batch.fullId_inside]
    by_cases htop : b.parent = none
    · -- the step around the batch is one of the workflow's own
      have hb : b = w.topBatch := by
        cases hway with
        | refl => rfl
        | tail _ h =>
          obtain ⟨q, -, o, t, -, -, rfl⟩ := h
          cases htop
      subst hb
      exact ⟨p, hp, s.id, rfl⟩
    · obtain ⟨r, hr, rest, hrest⟩ := ih htop p
      refine ⟨r, hr, rest ++ "." ++ s.id, ?_⟩
      rw [hrest]
      simp only [String.append_assoc]

/-- Where ids hold no points, full ids hold one for each step around, so that the full ids of a
batch hold more than those of the enclosing batches. -/
theorem Workflow.PlainIds.count_point (h : w.PlainIds) (hbatch : w.HasBatch b) :
    ∃ depth, (∀ s ∈ b.steps, (b.fullId s).toList.count '.' = depth) ∧
      ∀ id ∈ b.outer, id.toList.count '.' < depth := by
  induction hbatch with
  | refl =>
    refine ⟨0, fun s hs => ?_, by simp [Workflow.topBatch]⟩
    exact List.count_eq_zero.2 (h.no_point _ .refl s hs)
  | @tail b _ hway hinside ih =>
    obtain ⟨depth, hsteps, houter⟩ := ih
    have hinner := hway.tail hinside
    obtain ⟨p, hp, o, t, -, -, rfl⟩ := hinside
    refine ⟨depth + 1, fun s hs => ?_, fun id hid => ?_⟩
    · have hpoint : ".".toList.count '.' = 1 := rfl
      rw [Batch.fullId_inside, String.toList_append, String.toList_append, List.count_append,
        List.count_append, hsteps p hp, hpoint, List.count_eq_zero.2 (h.no_point _ hinner s hs)]
    · rcases List.mem_append.1 hid with hid | hid
      · exact Nat.lt_succ_of_lt (houter id hid)
      · obtain ⟨s, hs, rfl⟩ := List.mem_map.1 hid
        exact Nat.lt_succ_of_le (hsteps s hs).le

/-- Then nothing is misread: a need that is not changed is not the full id of a sibling. -/
theorem Workflow.PlainIds.not_misreads (h : w.PlainIds) (hfindings : w.findings = [])
    (hbatch : w.HasBatch b) (x y : String) : ¬ b.Misreads x y := by
  rintro ⟨s, hs, -, hneed, hids, hfull⟩
  obtain ⟨i, hi, hiy⟩ := List.mem_map.1 hfull
  have hinline : b.parent ≠ none := by
    intro hparent
    rw [Batch.map_fullId, hparent] at hfull
    exact hids (by simpa [WorkflowCompiler.fullId] using hfull)
  rcases (Workflow.wellFormed_of_hasBatch hfindings hbatch).resolves s hs y hneed with
    hmem | houter | ⟨q, hq, child, hchild, hpoint, -⟩
  · exact hids hmem
  · obtain ⟨depth, hsteps, hless⟩ := h.count_point hbatch
    have hlt := hless y houter
    rw [← hiy, hsteps i hi] at hlt
    exact Nat.lt_irrefl depth hlt
  · -- the sibling would have the id of one of the workflow's own steps
    obtain ⟨r, hr, rest, hrest⟩ := Workflow.fullId_eq_of_inline hbatch hinline i
    have hfirst := cutAt?_point_iff.2 ⟨hiy.symm.trans hrest, h.no_point _ .refl r hr⟩
    rw [cutAt?_point_iff.2 ⟨hchild, hpoint⟩, Option.some.injEq, Prod.mk.injEq] at hfirst
    refine h.inline_differ b hbatch hinline q hq ?_
    rw [hfirst.1]
    exact List.mem_map_of_mem hr

/-- So no circle is missed in a workflow with such ids. -/
theorem Workflow.PlainIds.readsWell (h : w.PlainIds) (hfindings : w.findings = []) :
    w.ReadsWell :=
  fun _ hbatch _ x y hmisreads => absurd hmisreads (h.not_misreads hfindings hbatch x y)

end PlainIds

end WorkflowCompiler
