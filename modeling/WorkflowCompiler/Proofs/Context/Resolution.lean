import WorkflowCompiler.Context.Substitution

/-!
# Resolving as a function of the context

What a path resolves to is a function of the context alone (`Context.resolveIn`): what has been
asked for before does not matter, because a context counts for the same whether the outputs
that the look-up reports of a finished step are kept in it or not (`Context.known?`). All that
resolving does to a context is to keep such outputs (`Context.Remembers`).

`Context.resolveIn` and what it is made of read the context in few ways only, so contexts that
agree in them resolve every path alike (`Context.Alike`).
-/

namespace WorkflowCompiler

open Attempt

namespace Context

/-- The outputs of a step that the look-up reports as done. -/
def reported? (c : Context) (step : String) : Option (Fields Json) :=
  match c.lookup.bind (· step) with
  | some ⟨.done, outputs⟩ => some outputs
  | _ => none

/-- The outputs of a step, if the context has them or the look-up reports the step as done. -/
def known? (c : Context) (step : String) : Option (Fields Json) :=
  c.outputs.get? step <|> c.reported? step

/-- Why the outputs of a step are not known. -/
def whyUnknown (c : Context) (step : String) : ResolutionError :=
  match c.lookup.bind (· step) with
  | some ⟨status, _⟩ => .stepNotDone step status
  | none => .outputsUnavailable step

/-- The outputs that a reference to a step stands for; none if it has to wait. -/
def outputsIn (c : Context) (step : String) : Except ResolutionError (Option (Fields Json)) :=
  match c.known? step with
  | some outputs => .ok (some outputs)
  | none => if c.deferred then .ok none else .error (c.whyUnknown step)

/-- What a reference to a field of the outputs of a step resolves to, once these are known. -/
def fieldOfOutputs (path step : String) (fields : List String) (outputs : Fields Json) :
    Except ResolutionError Resolution :=
  match fields with
  | [] => .ok (.value (.obj outputs))
  | field :: deeper =>
    match outputs.get? field with
    | none => .error (.unknownOutput step field outputs.names)
    | some value => (walk path value deeper).map .value

/-- What a path resolves to. -/
def resolveIn (c : Context) (path : String) : Except ResolutionError Resolution :=
  match Referent.ofPath path with
  | .output step fields =>
    match c.outputsIn step with
    | .ok (some outputs) => fieldOfOutputs path step fields outputs
    | .ok none => .ok .deferred
    | .error e => .error e
  | .binding root fields => resolveBinding c path root fields

/-- The other context is this one, but for outputs that it keeps. -/
structure Remembers (c c' : Context) : Prop where
  /-- it differs in its outputs only -/
  eq_outputs : c' = { c with outputs := c'.outputs }
  /-- the same outputs are known of every step -/
  known_eq : ∀ step, c'.known? step = c.known? step

theorem Remembers.refl (c : Context) : c.Remembers c := ⟨rfl, fun _ => rfl⟩

/-- The outputs that the look-up reports may be kept. -/
theorem remembers_setOutputs {c : Context} {step : String} {outputs : Fields Json}
    (hknown : c.known? step = some outputs) : c.Remembers (c.setOutputs step outputs) := by
  refine ⟨rfl, fun other => ?_⟩
  have hreported : (c.setOutputs step outputs).reported? other = c.reported? other := rfl
  rw [known?, hreported, setOutputs, Fields.get?_set]
  by_cases h : step = other
  · subst h
    rw [if_pos rfl, hknown]
    rfl
  · rw [if_neg h]
    rfl

end Context

/-! ## Running -/

theorem askFor_apply (step : String) (s : Session) :
    ∃ s', askFor step s = (.ok (s.context.lookup.bind (· step)), s') ∧ s'.context = s.context := by
  rw [askFor]
  cases s.context.lookup with
  | none => exact ⟨s, rfl, rfl⟩
  | some lookup => exact ⟨{ s with asked := s.asked ++ [step] }, rfl, rfl⟩

theorem outputsOf_apply (step : String) (s : Session) :
    ∃ s', outputsOf step s = (s.context.outputsIn step, s') ∧
      s.context.Remembers s'.context := by
  rw [outputsOf, bind_apply_of_ok (ask_apply _ s)]
  rcases hkept : s.context.outputs.get? step with _ | outputs
  · obtain ⟨s', hask, hcontext⟩ := askFor_apply step s
    simp only [bind_apply_of_ok hask]
    -- the look-up knows nothing of the step, or reports it as done or as something else
    rcases hlookup : s.context.lookup.bind (· step) with _ | ⟨status, outputs⟩
    · have hnone : s.context.known? step = none := by
        rw [Context.known?, hkept, Context.reported?, hlookup]
        rfl
      refine ⟨s', ?_, hcontext ▸ .refl _⟩
      simp only [bind_apply_of_ok (ask_apply _ s'), hcontext, Context.outputsIn, hnone,
        Context.whyUnknown, hlookup]
      cases s.context.deferred <;> rfl
    · by_cases hdone : status = .done
      · subst hdone
        have hknown : s.context.known? step = some outputs := by
          rw [Context.known?, hkept, Context.reported?, hlookup]
          rfl
        refine ⟨s'.update (·.setOutputs step outputs), ?_, ?_⟩
        · rw [Context.outputsIn, hknown]
          rfl
        · rw [Session.context_update, hcontext]
          exact Context.remembers_setOutputs hknown
      · have hnone : s.context.known? step = none := by
          rw [Context.known?, hkept, Context.reported?, hlookup]
          cases status with
          | done => exact absurd rfl hdone
          | _ => rfl
        refine ⟨s', ?_, hcontext ▸ .refl _⟩
        rw [Context.outputsIn, hnone, Context.whyUnknown, hlookup]
        cases status with
        | done => exact absurd rfl hdone
        | _ =>
          simp only [bind_apply_of_ok (ask_apply _ s'), hcontext]
          cases s.context.deferred <;> rfl
  · refine ⟨s, ?_, .refl _⟩
    rw [Context.outputsIn, Context.known?, hkept]
    rfl

/-- A path resolves to what it resolves to in the context, which at most keeps more outputs
than before. -/
theorem resolve_apply (path : String) (s : Session) :
    ∃ s', resolve path s = (s.context.resolveIn path, s') ∧ s.context.Remembers s'.context := by
  rw [resolve, Context.resolveIn]
  cases Referent.ofPath path with
  | binding root fields => exact ⟨s, rfl, .refl _⟩
  | output step fields =>
    obtain ⟨s', houtputs, hremembers⟩ := outputsOf_apply step s
    refine ⟨s', ?_, hremembers⟩
    simp only [resolveOutput]
    rcases hin : s.context.outputsIn step with e | _ | outputs
    · rw [hin] at houtputs
      exact bind_apply_of_error houtputs _
    · rw [hin] at houtputs
      exact bind_apply_of_ok houtputs _
    · rw [hin] at houtputs
      simp only [bind_apply_of_ok houtputs, Context.fieldOfOutputs]
      cases fields with
      | nil => rfl
      | cons field deeper =>
        cases hfield : outputs.get? field with
        | none => simp [hfield]
        | some value => simp [hfield]

/-! ## Contexts that agree -/

namespace Context

/-- The two contexts have the same variables, know the same outputs, and read the same look-up
and the same clock. They may bind other builtins, bind other roots late, and differ in
deferral. -/
structure SameGround (c c' : Context) : Prop where
  /-- the same variables -/
  vars_eq : c'.vars = c.vars
  /-- the same outputs are known -/
  known_eq : ∀ step, c'.known? step = c.known? step
  /-- the same look-up -/
  lookup_eq : c'.lookup = c.lookup
  /-- the same moment -/
  clock_eq : c'.clock = c.clock

/-- The two contexts resolve every path alike: they bind, defer and know the same. -/
structure Alike (c c' : Context) : Prop extends SameGround c c' where
  /-- the same builtins -/
  builtins_eq : ∀ name, c'.builtins.get? name = c.builtins.get? name
  /-- the same roots bound late -/
  late_iff : ∀ name, name ∈ c'.late ↔ name ∈ c.late
  /-- the same deferral -/
  deferred_eq : c'.deferred = c.deferred

variable {c c' c'' : Context}

namespace SameGround

theorem refl (c : Context) : c.SameGround c := ⟨rfl, fun _ => rfl, rfl, rfl⟩

theorem symm (h : c.SameGround c') : c'.SameGround c :=
  ⟨h.vars_eq.symm, fun step => (h.known_eq step).symm, h.lookup_eq.symm, h.clock_eq.symm⟩

theorem trans (h : c.SameGround c') (h' : c'.SameGround c'') : c.SameGround c'' :=
  ⟨h'.vars_eq.trans h.vars_eq, fun step => (h'.known_eq step).trans (h.known_eq step),
    h'.lookup_eq.trans h.lookup_eq, h'.clock_eq.trans h.clock_eq⟩

end SameGround

namespace Alike

theorem symm (h : c.Alike c') : c'.Alike c :=
  ⟨h.toSameGround.symm, fun name => (h.builtins_eq name).symm,
    fun name => (h.late_iff name).symm, h.deferred_eq.symm⟩

theorem trans (h : c.Alike c') (h' : c'.Alike c'') : c.Alike c'' :=
  ⟨h.toSameGround.trans h'.toSameGround,
    fun name => (h'.builtins_eq name).trans (h.builtins_eq name),
    fun name => (h'.late_iff name).trans (h.late_iff name), h'.deferred_eq.trans h.deferred_eq⟩

theorem binding_eq (h : c.Alike c') (root : String) : c'.binding? root = c.binding? root := by
  rw [binding?, binding?, h.vars_eq, h.builtins_eq]

theorem outputsIn_eq (h : c.Alike c') (step : String) : c'.outputsIn step = c.outputsIn step := by
  rw [outputsIn, outputsIn, h.known_eq, h.deferred_eq, whyUnknown, whyUnknown, h.lookup_eq]

theorem resolveIn_eq (h : c.Alike c') (path : String) : c'.resolveIn path = c.resolveIn path := by
  rw [resolveIn, resolveIn]
  cases Referent.ofPath path with
  | output step fields => simp only [h.outputsIn_eq]
  | binding root fields =>
    simp only [resolveBinding, h.binding_eq, h.clock_eq, h.late_iff]

end Alike

namespace Remembers

theorem trans (h : c.Remembers c') (h' : c'.Remembers c'') : c.Remembers c'' := by
  refine ⟨?_, fun step => (h'.known_eq step).trans (h.known_eq step)⟩
  rw [h'.eq_outputs, h.eq_outputs]

theorem alike (h : c.Remembers c') : c.Alike c' := by
  have heq := h.eq_outputs
  refine ⟨⟨?_, h.known_eq, ?_, ?_⟩, fun name => ?_, fun name => ?_, ?_⟩ <;> rw [heq]

end Remembers

end Context

end WorkflowCompiler
