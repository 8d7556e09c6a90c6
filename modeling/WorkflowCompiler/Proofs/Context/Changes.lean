import WorkflowCompiler.Compilation.Step
import WorkflowCompiler.Proofs.Context.Resolution

/-!
# What compiling a step changes in a context

Entering a step, binding its agent and binding names late change the builtins of a context and
the roots that are bound late, and nothing else (`sameGround_enter` and the like). What they
change is listed here, so that the changes need not be opened again.
-/

namespace WorkflowCompiler

/-- The builtins that each step binds for itself. -/
def stepRoots : List String := ["step_id", "bead_id", agentRoot]

namespace Context

variable {c c' : Context} {id agent name : String} {names : List String}

/-! ## Entering a step -/

/-- The context in which a step is compiled, before its agent is known. -/
def enter (c : Context) (id : String) : Context := (c.atStep id).withoutAgent

theorem sameGround_enter (c : Context) (id : String) : c.SameGround (c.enter id) := by
  rw [enter, withoutAgent]
  split <;> exact ⟨rfl, fun _ => rfl, rfl, rfl⟩

theorem deferred_enter (c : Context) (id : String) : (c.enter id).deferred = c.deferred := by
  rw [enter, withoutAgent]
  split <;> rfl

/-- A step has its own id and no agent yet. -/
theorem builtins_enter (c : Context) (id name : String) :
    (c.enter id).builtins.get? name =
      if name = agentRoot then none
      else if name = "step_id" ∨ name = "bead_id" then some (.str id)
      else c.builtins.get? name := by
  have hbuiltins : (c.enter id).builtins =
      ((c.builtins.set "step_id" (.str id)).set "bead_id" (.str id)).erase agentRoot := by
    rw [enter, withoutAgent]
    split <;> rfl
  rw [hbuiltins, Fields.get?_erase, Fields.get?_set, Fields.get?_set]
  by_cases hagent : name = agentRoot
  · rw [if_pos hagent.symm, if_pos hagent]
  · rw [if_neg (Ne.symm hagent), if_neg hagent]
    by_cases hbead : name = "bead_id"
    · simp [hbead]
    · by_cases hstep : name = "step_id"
      · simp [hstep]
      · rw [if_neg (Ne.symm hbead), if_neg (Ne.symm hstep), if_neg (by simp [hbead, hstep])]

/-- A reference to the agent waits if the context defers and no variable has the name. -/
theorem mem_late_enter :
    name ∈ (c.enter id).late ↔
      if name = agentRoot then c.deferred = true ∧ c.vars.has agentRoot = false
      else name ∈ c.late := by
  have hcondition : ((c.atStep id).removeBuiltin agentRoot).deferred = c.deferred ∧
      ((c.atStep id).removeBuiltin agentRoot).vars = c.vars ∧
      ((c.atStep id).removeBuiltin agentRoot).late = c.late := ⟨rfl, rfl, rfl⟩
  obtain ⟨hdeferred, hvars, hlate⟩ := hcondition
  simp only [enter, withoutAgent, hdeferred, hvars]
  cases hwaits : c.deferred && !c.vars.has agentRoot with
  | true =>
    rw [if_pos rfl, mem_late_bindLate, hlate]
    rw [Bool.and_eq_true, Bool.not_eq_true'] at hwaits
    by_cases hagent : name = agentRoot <;> simp [hagent, hwaits]
  | false =>
    rw [if_neg Bool.false_ne_true, mem_late_unbindLate, hlate]
    by_cases hagent : name = agentRoot
    · subst hagent
      rw [if_pos rfl]
      simpa using hwaits
    · simp [hagent]

/-! ## Binding the agent -/

theorem sameGround_withAgent (c : Context) (agent : String) :
    c.SameGround (c.withAgent agent) := ⟨rfl, fun _ => rfl, rfl, rfl⟩

theorem builtins_withAgent (c : Context) (agent name : String) :
    (c.withAgent agent).builtins.get? name =
      if name = agentRoot then some (.str agent) else c.builtins.get? name := by
  rw [withAgent, setBuiltin, Fields.get?_set]
  by_cases hagent : name = agentRoot
  · rw [if_pos hagent.symm, if_pos hagent]
  · rw [if_neg (Ne.symm hagent), if_neg hagent]
    rfl

theorem mem_late_withAgent :
    name ∈ (c.withAgent agent).late ↔ name ∈ c.late ∧ name ≠ agentRoot :=
  mem_late_unbindLate

/-! ## Binding names late -/

/-- The context with names bound late. -/
def bindAll (c : Context) (names : List String) : Context := names.foldl bindLate c

/-- The context with names no longer bound late. -/
def unbindAll (c : Context) (names : List String) : Context := names.foldl unbindLate c

theorem exists_bindAll (c : Context) (names : List String) :
    ∃ late, c.bindAll names = { c with late } := by
  induction names generalizing c with
  | nil => exact ⟨c.late, rfl⟩
  | cons name names ih => exact ih (c.bindLate name)

theorem exists_unbindAll (c : Context) (names : List String) :
    ∃ late, c.unbindAll names = { c with late } := by
  induction names generalizing c with
  | nil => exact ⟨c.late, rfl⟩
  | cons name names ih => exact ih (c.unbindLate name)

/-- Contexts that bind other roots late have the rest in common. -/
theorem eq_of_late_only (h : ∃ late, c' = { c with late }) :
    c.SameGround c' ∧ c'.deferred = c.deferred ∧ c'.builtins = c.builtins := by
  obtain ⟨late, rfl⟩ := h
  exact ⟨⟨rfl, fun _ => rfl, rfl, rfl⟩, rfl, rfl⟩

theorem mem_late_bindAll :
    name ∈ (c.bindAll names).late ↔ name ∈ names ∨ name ∈ c.late := by
  induction names generalizing c with
  | nil => simp [bindAll]
  | cons first names ih =>
    rw [bindAll, List.foldl_cons, ← bindAll, ih, mem_late_bindLate, List.mem_cons, or_left_comm,
      or_assoc]

theorem mem_late_unbindAll :
    name ∈ (c.unbindAll names).late ↔ name ∈ c.late ∧ name ∉ names := by
  induction names generalizing c with
  | nil => simp [unbindAll]
  | cons first names ih =>
    rw [unbindAll, List.foldl_cons, ← unbindAll, ih, mem_late_unbindLate, List.mem_cons, not_or,
      and_assoc]

end Context

end WorkflowCompiler
