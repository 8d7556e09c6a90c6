import WorkflowCompiler.Proofs.Compilation.Steps

/-!
# Inline steps that are compiled by themselves

Before inline steps are compiled, their ids and their needs of each other are looked at. If an id is
there twice, or the needs go round, the batch is refused: nothing is compiled, and the state stays
as it is (`RefusesInline`). Otherwise, if all of them compile and can be put in order, the result
has one step for each of them, under the id of the branch, with needs that fit (`CompiledInline`).
-/

namespace WorkflowCompiler

open Attempt
open Relation (TransGen)

/-! ## What is refused -/

/-- Inline steps are refused with an error: whatever compiling them would do is not done, and what a
compiler holds stays as it is. -/
structure RefusesInline (parent : String) (steps : List Step) (e : CompileError) : Prop where
  /-- compiling the steps is not even begun -/
  before_members : ∀ members s, inlineBatch parent steps members s = (.error e, s)
  /-- no compiler takes them, and none changes by it -/
  compiler : ∀ c : Compiler, c.compileInline steps parent = (.error e, c)

theorem refusesInline_of_checkInline {parent : String} {steps : List Step} {e : CompileError}
    (h : checkInline parent steps = .error e) : RefusesInline parent steps e := by
  have hmembers : ∀ members s, inlineBatch parent steps members s = (.error e, s) := by
    intro members s
    have hcheck : (ofExcept (checkInline parent steps) : Compiling Unit) s = (.error e, s) := by
      rw [ofExcept_apply, h]
    rw [inlineBatch, bind_apply_of_error hcheck]
  refine ⟨hmembers, fun c => ?_⟩
  simp only [Compiler.compileInline, compileInline, hmembers]

section Checked

variable {parent : String} {steps : List Step}

/-- Inline steps of which two have the same id are refused for the first id that is there again. -/
theorem exists_refuses_duplicateStep (h : ¬ (steps.map (·.id)).Nodup) :
    ∃ before s after, steps = before ++ s :: after ∧ s.id ∈ before.map (·.id) ∧
      (before.map (·.id)).Nodup ∧
      RefusesInline parent steps (.duplicateStep (parent ++ "." ++ s.id)) := by
  rcases hfirst : firstRepeated? [] (steps.map (·.id)) with _ | id
  · exact absurd (firstRepeated?_eq_none_iff.1 hfirst).1 h
  · have hcheck : checkInline parent steps = .error (.duplicateStep (parent ++ "." ++ id)) := by
      rw [checkInline, hfirst]
      rfl
    obtain ⟨_, _, hids, hagain, hnodup, -⟩ := firstRepeated?_eq_some hfirst
    obtain ⟨before, rest, rfl, rfl, hrest⟩ := List.map_eq_append_iff.1 hids
    obtain ⟨s, after, rfl, rfl, -⟩ := List.map_eq_cons_iff.1 hrest
    exact ⟨before, s, after, rfl, hagain.resolve_left List.not_mem_nil, hnodup,
      refusesInline_of_checkInline hcheck⟩

/-- Inline steps with distinct ids, one of which needs itself through others, are refused for a
circle. -/
theorem exists_refuses_cycle (hnodup : (steps.map (·.id)).Nodup) {id : String}
    (h : TransGen ({ parent := some parent, steps } : Batch).Needs id id) :
    ∃ path, (NeedsGraph.ofSteps steps).Circuit path ∧
      RefusesInline parent steps (.cycle path) := by
  have hclosed : (NeedsGraph.ofSteps steps).Closed := NeedsGraph.closed_ofDeclared _
  have hneeds : (NeedsGraph.ofSteps steps).Needs =
      ({ parent := some parent, steps } : Batch).Needs := by
    funext x y
    exact propext (needs_ofSteps_iff (b := { parent := some parent, steps }))
  rcases hcycles : (NeedsGraph.ofSteps steps).findCycles with _ | ⟨path, paths⟩
  · have hacyclic := (NeedsGraph.findCycles_eq_nil_iff hclosed).1 hcycles
    rw [NeedsGraph.Acyclic, hneeds] at hacyclic
    exact absurd h (hacyclic id)
  · refine ⟨path, NeedsGraph.circuit_of_mem_findCycles hclosed (hcycles ▸ List.mem_cons_self),
      refusesInline_of_checkInline ?_⟩
    rw [checkInline, firstRepeated?_eq_none_iff.2 ⟨hnodup, fun _ _ => List.not_mem_nil⟩]
    simp only [hcycles]

end Checked

/-! ## What is compiled -/

/-- A compiled inline step has an id under the branch and the needs of its step: those of the batch
under the branch as well, the others as they stand, and the branch if none is of the batch. -/
structure InlineFrom (parent : String) (batch : List String) (s : Step) (c : CompiledStep) :
    Prop where
  /-- the id under the branch -/
  id_eq : c.id = parent ++ "." ++ s.id
  /-- the needs, in the order in which they are declared -/
  needs_eq : c.needs =
    s.needs.map (fun need => if need ∈ batch then parent ++ "." ++ need else need) ++
      if ∃ need ∈ s.needs, need ∈ batch then [] else [parent]

/-- Inline steps are compiled, each of them once and behind those that it needs. -/
structure CompiledInline (parent : String) (steps : List Step) (out : List CompiledStep) :
    Prop where
  /-- in another order, the compiled steps are those of the steps as they are declared -/
  perm : ∃ compiled, out.Perm compiled ∧
    List.Forall₂ (InlineFrom parent (steps.map (·.id))) steps compiled
  /-- no two have the same id -/
  nodup : (out.map (·.id)).Nodup
  /-- what a step needs of the batch stands before it -/
  needs_first : ∀ s ∈ steps, ∀ need ∈ s.needs, need ∈ steps.map (·.id) →
    (out.map (·.id)).idxOf (parent ++ "." ++ need) < (out.map (·.id)).idxOf (parent ++ "." ++ s.id)

theorem inlineNeeds_eq (parent : String) (batch needs : List String) :
    inlineNeeds parent batch needs =
      needs.map (fun need => if need ∈ batch then parent ++ "." ++ need else need) ++
        if ∃ need ∈ needs, need ∈ batch then [] else [parent] := by
  have hany : needs.any (· ∈ batch) = true ↔ ∃ need ∈ needs, need ∈ batch := by
    simp only [List.any_eq_true, decide_eq_true_eq]
  rw [inlineNeeds, if_congr hany rfl rfl]
  rfl

/-- Inline steps that are compiled by themselves are compiled as a batch under the branch. -/
theorem compiledInline_of_yields {settings : RunSettings} {parent : String} {steps : List Step}
    {out : List CompiledStep} (h : (compileInline settings steps parent).Yields out) :
    CompiledInline parent steps out := by
  have hbatch := CompiledBatch.of_inline_yields h []
  obtain ⟨⟨⟩, hcheck, h⟩ := h.of_bind
  obtain ⟨compiled, hcompiled, h⟩ := h.of_bind
  have hfrom :=
    Batch.compiledFrom_of_members_yields (b := { parent := some parent, steps }) hcompiled
  refine ⟨⟨compiled, ?_, ?_⟩, hbatch.ids_nodup, ?_⟩
  · have hids := hbatch.nodup_fullIds
    rw [← Batch.map_id_eq_of_forall₂ hfrom] at hids
    exact inOrder_perm hids h.eq_of_ofExcept
  · refine hfrom.imp fun s c hc => ⟨hc.id_eq, ?_⟩
    rw [← inlineNeeds_eq]
    exact hc.needs_eq
  · intro s hs need hneed hmem
    obtain ⟨q, hq, rfl⟩ := List.mem_map.1 hmem
    obtain ⟨c, hc, hcfrom⟩ := hbatch.exists_compiled hs
    obtain ⟨d, hd, hdfrom⟩ := hbatch.exists_compiled hq
    have hdneed : d.id ∈ c.needs := by
      rw [hcfrom.needs_eq, hdfrom.id_eq]
      exact List.mem_append_left _ (List.mem_map.2 ⟨q.id, hneed, if_pos hmem⟩)
    have hlt := hbatch.needs_first c hc d.id hdneed (List.mem_map_of_mem hd)
    rw [hcfrom.id_eq, hdfrom.id_eq] at hlt
    exact hlt

/-- Whatever a compiler holds, inline steps with an id that is there twice, or with needs that go
round, are refused for that. If they compile, they do so each once, with needs that fit, and behind
those that they need. -/
theorem Compiler.compileInline_batch (c : Compiler) (steps : List Step) (parent : String) :
    (¬ (steps.map (·.id)).Nodup → ∃ before s after, steps = before ++ s :: after ∧
      s.id ∈ before.map (·.id) ∧ (before.map (·.id)).Nodup ∧
      RefusesInline parent steps (.duplicateStep (parent ++ "." ++ s.id))) ∧
    ((steps.map (·.id)).Nodup →
      (∃ id, TransGen ({ parent := some parent, steps } : Batch).Needs id id) →
      ∃ path, (NeedsGraph.ofSteps steps).Circuit path ∧
        RefusesInline parent steps (.cycle path)) ∧
    ∀ out, (c.compileInline steps parent).1 = .ok out → CompiledInline parent steps out := by
  refine ⟨exists_refuses_duplicateStep, ?_, fun out h => ?_⟩
  · rintro hnodup ⟨id, hcircle⟩
    exact exists_refuses_cycle hnodup hcircle
  · exact compiledInline_of_yields (yields_of_fst_eq_ok h)

/-- Inline steps of which one needs another, two need a step that is none of them, and one needs
what looks like the id under which another one is compiled. -/
def signedSteps : List Step :=
  [{ id := "sign", executor := some "shell", command := some "make sign",
     needs := ["pack", "audit"] },
    { id := "pack", executor := some "shell", command := some "make pack", needs := ["audit"] },
    { id := "note", executor := some "shell", command := some "make note",
      needs := ["gate.pack"] }]

/-- Inline steps that need each other. -/
def knottedSteps : List Step :=
  [{ id := "sign", executor := some "shell", command := some "make sign", needs := ["pack"] },
    { id := "pack", executor := some "shell", command := some "make pack", needs := ["sign"] }]

/-- The steps are compiled; they are refused if they are there twice, and so are steps that need
each other. -/
theorem signedSteps_compileInline :
    (∃ out,
      ((Compiler.mk { workflowId := "run" } {}).compileInline signedSteps "gate").1 = .ok out ∧
      CompiledInline "gate" signedSteps out) ∧
    (∃ id, RefusesInline "gate" (signedSteps ++ signedSteps) (.duplicateStep id)) ∧
    ∃ path, RefusesInline "gate" knottedSteps (.cycle path) := by
  have hbatch := Compiler.compileInline_batch (Compiler.mk { workflowId := "run" } {})
  refine ⟨?_, ?_, ?_⟩
  · obtain ⟨out, hout⟩ := Option.isSome_iff_exists.1 (show ((Compiler.mk { workflowId := "run" }
      {}).compileInline signedSteps "gate").1.toOption.isSome = true by decide +kernel)
    have hok := eq_ok_of_toOption_eq_some hout
    exact ⟨out, hok, (hbatch signedSteps "gate").2.2 out hok⟩
  · obtain ⟨_, s, _, -, -, -, hrefuses⟩ :=
      (hbatch (signedSteps ++ signedSteps) "gate").1 (by decide)
    exact ⟨_, hrefuses⟩
  · have hsign : ({ parent := some "gate", steps := knottedSteps } : Batch).Needs "sign" "pack" :=
      ⟨_, List.mem_cons_self, rfl, List.mem_singleton_self _, by decide⟩
    have hpack : ({ parent := some "gate", steps := knottedSteps } : Batch).Needs "pack" "sign" :=
      ⟨_, List.mem_cons_of_mem _ List.mem_cons_self, rfl, List.mem_singleton_self _, by decide⟩
    obtain ⟨path, -, hrefuses⟩ :=
      (hbatch knottedSteps "gate").2.1 (by decide) ⟨"sign", .tail (.single hsign) hpack⟩
    exact ⟨path, hrefuses⟩

end WorkflowCompiler
