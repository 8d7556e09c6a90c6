import WorkflowCompiler.Proofs.Attempts
import WorkflowCompiler.Proofs.Context.Resolution

/-!
# What a look-up is asked for

Outputs of a step are asked for only while none are kept, and what the look-up answers of a step
that is done is kept at once. So all that becomes of the outputs in a context is told by the
questions and the answers to them (`Asks`): replaying these leads from the one table to the other.
This is preserved by whatever is made of resolving, be it that a computation fails half-way
(`preserves_resolve`, `preserves_substitute`, `preserves_substituteShell`), and so by every sequence
of calls, even while the steps make progress and the look-up answers differently
(`events_disciplined`).
-/

namespace WorkflowCompiler

open Attempt

/-! ## Questions and answers -/

/-- A question to the look-up about a step, and the answer to it. -/
structure Question where
  /-- the step -/
  step : String
  /-- what the look-up reports of it, if anything -/
  answer : Option Snapshot

namespace Question

/-- The outputs that the answer tells, if the step is done. -/
def told? (q : Question) : Option (Fields Json) :=
  match q.answer with
  | some ⟨.done, outputs⟩ => some outputs
  | _ => none

/-- The outputs that are kept after the question: those that the answer tells are added. -/
def learn (kept : Fields (Fields Json)) (q : Question) : Fields (Fields Json) :=
  match q.told? with
  | some outputs => kept.set q.step outputs
  | none => kept

variable {q : Question} {outputs : Fields Json}

theorem told?_eq_some_iff : q.told? = some outputs ↔ q.answer = some ⟨.done, outputs⟩ := by
  obtain ⟨step, _ | ⟨_ | _ | _ | _, found⟩⟩ := q <;> simp [told?]

theorem learn_of_told (kept : Fields (Fields Json)) (h : q.told? = some outputs) :
    learn kept q = kept.set q.step outputs := by
  rw [learn, h]

theorem learn_of_not_told (kept : Fields (Fields Json)) (h : q.told? = none) :
    learn kept q = kept := by
  rw [learn, h]

theorem get?_learn_of_told (kept : Fields (Fields Json)) (h : q.told? = some outputs) :
    (learn kept q).get? q.step = some outputs := by
  rw [learn_of_told kept h, Fields.get?_set, if_pos rfl]

/-- Nothing is learnt of the other steps. -/
theorem get?_learn_of_ne (kept : Fields (Fields Json)) {step : String} (h : step ≠ q.step) :
    (learn kept q).get? step = kept.get? step := by
  rcases htold : q.told? with _ | outputs
  · rw [learn_of_not_told kept htold]
  · rw [learn_of_told kept htold, Fields.get?_set, if_neg h.symm]

end Question

/-- The questions, one after the other, each about a step of which no outputs are kept by then, make
the first outputs that are kept into the second ones. -/
inductive Asks : Fields (Fields Json) → List Question → Fields (Fields Json) → Prop
  /-- nothing is asked -/
  | nil (kept : Fields (Fields Json)) : Asks kept [] kept
  /-- a question is asked, and then others are -/
  | cons {kept kept' : Fields (Fields Json)} {q : Question} {rest : List Question}
      (hunknown : kept.get? q.step = none) (hrest : Asks (q.learn kept) rest kept') :
      Asks kept (q :: rest) kept'

namespace Asks

variable {kept kept' kept'' : Fields (Fields Json)} {log log' : List Question} {step : String}
  {outputs : Fields Json}

theorem append (h : Asks kept log kept') (h' : Asks kept' log' kept'') :
    Asks kept (log ++ log') kept'' := by
  induction h with
  | nil => exact h'
  | cons hunknown _ ih => exact .cons hunknown (ih h')

/-- The second outputs are what is learnt from the answers. -/
theorem eq_foldl (h : Asks kept log kept') : kept' = log.foldl Question.learn kept := by
  induction h with
  | nil => rfl
  | cons _ _ ih => exact ih

/-- Earlier questions are followed by later ones. -/
theorem of_append (h : Asks kept (log ++ log') kept') :
    Asks (log.foldl Question.learn kept) log' kept' := by
  induction log generalizing kept with
  | nil => exact h
  | cons q log ih =>
    cases h with
    | cons _ hrest => exact ih hrest

/-- What is kept stays so. -/
theorem kept_of_kept (h : Asks kept log kept') (hkept : kept.get? step = some outputs) :
    kept'.get? step = some outputs := by
  induction h with
  | nil => exact hkept
  | @cons kept kept' q rest hunknown _ ih =>
    apply ih
    have hother : step ≠ q.step := by
      rintro rfl
      rw [hunknown] at hkept
      cases hkept
    rw [Question.get?_learn_of_ne _ hother, hkept]

/-- A step is not asked for when outputs of it are kept. -/
theorem step_ne_of_kept (h : Asks kept log kept') (hkept : kept.get? step = some outputs) :
    ∀ q ∈ log, q.step ≠ step := by
  induction h with
  | nil => simp
  | @cons kept kept' q rest hunknown _ ih =>
    have hother : q.step ≠ step := by
      rintro rfl
      rw [hunknown] at hkept
      cases hkept
    have hkept' : (q.learn kept).get? step = some outputs := by
      rw [Question.get?_learn_of_ne _ hother.symm, hkept]
    exact List.forall_mem_cons.2 ⟨hother, ih hkept'⟩

/-- Outputs that are new were told. -/
theorem mem_of_kept (h : Asks kept log kept') (hnew : kept.get? step = none)
    (hkept : kept'.get? step = some outputs) : ⟨step, some ⟨.done, outputs⟩⟩ ∈ log := by
  induction h with
  | nil =>
    rw [hnew] at hkept
    cases hkept
  | @cons kept kept' q rest _ hrest ih =>
    rcases htold : q.told? with _ | found
    · -- an answer that tells nothing leaves the outputs as they are
      rw [Question.learn_of_not_told _ htold] at ih
      exact List.mem_cons_of_mem _ (ih hnew hkept)
    · by_cases hstep : step = q.step
      · subst hstep
        have hfound := hrest.kept_of_kept (Question.get?_learn_of_told _ htold)
        cases hfound.symm.trans hkept
        rw [← Question.told?_eq_some_iff.1 htold]
        exact List.mem_cons_self
      · have hnew' : (q.learn kept).get? step = none := by
          rw [Question.get?_learn_of_ne _ hstep, hnew]
        exact List.mem_cons_of_mem _ (ih hnew' hkept)

variable {before after : List Question} {q : Question}

/-- When a step is asked for, no outputs of it are kept, given what was learnt by then. -/
theorem unknown_when_asked (h : Asks kept (before ++ q :: after) kept') :
    (before.foldl Question.learn kept).get? q.step = none := by
  cases h.of_append with
  | cons hunknown => exact hunknown

/-- Once the outputs of a step are told, they are kept, and it is not asked for again. -/
theorem settled (h : Asks kept (before ++ ⟨step, some ⟨.done, outputs⟩⟩ :: after) kept') :
    (∀ q ∈ after, q.step ≠ step) ∧ kept'.get? step = some outputs := by
  cases h.of_append with
  | cons _ hafter =>
    have hkept := Question.get?_learn_of_told (before.foldl Question.learn kept)
      (Question.told?_eq_some_iff (q := ⟨step, some ⟨.done, outputs⟩⟩).2 rfl)
    exact ⟨hafter.step_ne_of_kept hkept, hafter.kept_of_kept hkept⟩

/-- A step that is always done when it is asked for is so once at most. -/
theorem count_le_one (h : Asks kept log kept')
    (hdone : ∀ q ∈ log, q.step = step → ∃ outputs, q.answer = some ⟨.done, outputs⟩) :
    (log.map Question.step).count step ≤ 1 := by
  induction h with
  | nil => simp
  | @cons kept kept' q rest _ hrest ih =>
    obtain ⟨hq, hdone⟩ := List.forall_mem_cons.1 hdone
    by_cases hstep : q.step = step
    · subst hstep
      obtain ⟨outputs, hanswer⟩ := hq rfl
      have hkept := Question.get?_learn_of_told kept (Question.told?_eq_some_iff.2 hanswer)
      have hnever : q.step ∉ rest.map Question.step := by
        simpa using hrest.step_ne_of_kept hkept
      simp [List.count_eq_zero.2 hnever]
    · rw [List.map_cons, List.count_cons_of_ne hstep]
      exact ih hdone

end Asks

/-! ## What computations ask for -/

namespace Session

/-- All that happened between the sessions is that the look-up was asked the questions. -/
structure AsksLog (s : Session) (log : List Question) (t : Session) : Prop where
  /-- the steps are recorded -/
  recorded : t.asked = s.asked ++ log.map Question.step
  /-- the answers are those of the look-up -/
  answered : ∀ q ∈ log, ∃ lookup, s.context.lookup = some lookup ∧ lookup q.step = q.answer
  /-- the outputs that are kept are those before and those that were told -/
  asks : Asks s.context.outputs log t.context.outputs
  /-- nothing else is different in the context -/
  eq_outputs : t.context = { s.context with outputs := t.context.outputs }

/-- The look-up was asked some questions, and nothing else happened between the sessions. -/
def AsksTo (s t : Session) : Prop := ∃ log, s.AsksLog log t

variable {s t u : Session}

theorem AsksTo.refl (s : Session) : s.AsksTo s :=
  ⟨[], (List.append_nil _).symm, by simp, .nil _, rfl⟩

theorem AsksTo.trans (h : s.AsksTo t) (h' : t.AsksTo u) : s.AsksTo u := by
  obtain ⟨log, h⟩ := h
  obtain ⟨log', h'⟩ := h'
  have hlookup : t.context.lookup = s.context.lookup := by rw [h.eq_outputs]
  refine ⟨log ++ log', ?_, ?_, h.asks.append h'.asks, ?_⟩
  · rw [h'.recorded, h.recorded, List.map_append, List.append_assoc]
  · have hanswered := h'.answered
    rw [hlookup] at hanswered
    exact List.forall_mem_append.2 ⟨h.answered, hanswered⟩
  · rw [h'.eq_outputs, h.eq_outputs]

end Session

section Preserves

variable {s : Session}

/-- If no outputs of a step are kept, the look-up is asked for it, if there is one, and they are
kept if it reports the step as done. -/
theorem asksTo_outputsOf (step : String) (s : Session) : s.AsksTo (outputsOf step s).2 := by
  rw [outputsOf, bind_apply_of_ok (ask_apply _ s)]
  rcases hkept : s.context.outputs.get? step with _ | outputs
  · rcases hlookup : s.context.lookup with _ | lookup
    · -- nobody can be asked
      have hask : askFor step s = (.ok none, s) := by rw [askFor, hlookup]
      simp only [bind_apply_of_ok hask, bind_apply_of_ok (ask_apply _ s)]
      cases s.context.deferred <;> exact .refl s
    · have hask : askFor step s = (.ok (lookup step), { s with asked := s.asked ++ [step] }) := by
        rw [askFor, hlookup]
      have hasks := Asks.cons (q := ⟨step, lookup step⟩) hkept (.nil _)
      have hanswered : ∀ q ∈ [Question.mk step (lookup step)],
          ∃ found, s.context.lookup = some found ∧ found q.step = q.answer := by
        rw [List.forall_mem_singleton]
        exact ⟨lookup, hlookup, rfl⟩
      simp only [bind_apply_of_ok hask]
      rcases hanswer : lookup step with _ | ⟨_ | _ | _ | _, outputs⟩
      case some.done =>
        rw [Question.learn_of_told _ (Question.told?_eq_some_iff.2 hanswer)] at hasks
        exact ⟨_, rfl, hanswered, hasks, rfl⟩
      all_goals
        have htold : Question.told? ⟨step, lookup step⟩ = none := by rw [Question.told?, hanswer]
        rw [Question.learn_of_not_told _ htold] at hasks
        simp only [bind_apply_of_ok (ask_apply _ _)]
        cases s.context.deferred <;> exact ⟨_, rfl, hanswered, hasks, rfl⟩
  · exact .refl s

theorem preserves_outputsOf (step : String) : (outputsOf step).Preserves s.AsksTo :=
  fun t ht => ht.trans (asksTo_outputsOf step t)

theorem preserves_resolve (path : String) : (resolve path).Preserves s.AsksTo := by
  rw [resolve]
  cases Referent.ofPath path with
  | binding root fields => exact fun t ht => ht
  | output step fields =>
    apply (preserves_outputsOf step).bind
    intro outputs
    cases outputs with
    | none => exact fun t ht => ht
    | some outputs =>
      cases fields with
      | nil => exact fun t ht => ht
      | cons field deeper =>
        dsimp only
        cases outputs.get? field <;> exact fun t ht => ht

theorem preserves_expandPieces (write : Json → String) (ps : List Piece) :
    (expandPieces write ps).Preserves s.AsksTo := by
  induction ps with
  | nil => exact fun t ht => ht
  | cons piece rest ih =>
    have hpiece : (expandPiece write piece).Preserves s.AsksTo := by
      rw [expandPiece]
      cases piece.path? with
      | none => exact fun t ht => ht
      | some path =>
        apply (preserves_resolve path).bind
        intro r
        cases r <;> exact fun t ht => ht
    exact hpiece.bind fun _ => ih.bind fun _ t ht => ht

/-- Rounds ask for what their passes ask for, one after the other. -/
theorem preserves_substituteRounds (rounds : Nat) (text : List Char) :
    (substituteRounds rounds text).Preserves s.AsksTo := by
  induction rounds generalizing text with
  | zero =>
    rw [substituteRounds, settle]
    refine Preserves.bind (fun t ht => ht) fun deferred => ?_
    split <;> exact fun t ht => ht
  | succ rounds ih =>
    apply (preserves_expandPieces Json.text (pieces text)).bind
    rintro ⟨next, _ | _⟩
    · exact fun t ht => ht
    · exact ih next

theorem preserves_substitute (text : String) : (substitute text).Preserves s.AsksTo := by
  rw [substitute_eq]
  exact (preserves_substituteRounds maxRounds text.toList).bind fun _ t ht => ht

theorem preserves_substituteShell (text : String) :
    (substituteShell text).Preserves s.AsksTo := by
  rw [substituteShell_eq]
  exact (preserves_expandPieces _ (pieces text.toList)).bind fun _ t ht => ht

end Preserves

/-! ## Events -/

/-- What can happen to a context. -/
inductive Event where
  /-- the placeholders of a text are to be substituted -/
  | substitute (text : String)
  /-- they are to be substituted for the shell -/
  | substituteShell (text : String)
  /-- a path is to be resolved -/
  | resolve (path : String)
  /-- steps make progress, and if there is a look-up, its answers are these from now on -/
  | progress (answers : String → Option Snapshot)

namespace Event

/-- The look-up after an event. -/
def lookup (found : Option (String → Option Snapshot)) : Event → Option (String → Option Snapshot)
  | progress answers => found.map fun _ => answers
  | _ => found

/-- The session after an event, whether a call failed or not. -/
def after (s : Session) : Event → Session
  | substitute text => (WorkflowCompiler.substitute text s).2
  | substituteShell text => (WorkflowCompiler.substituteShell text s).2
  | resolve path => (WorkflowCompiler.resolve path s).2
  | progress answers => s.update fun c => { c with lookup := c.lookup.map fun _ => answers }

end Event

/-- The look-up was asked the questions during the events, and but for these nothing happened
between the sessions. -/
structure Session.GoesThrough (s : Session) (events : List Event) (log : List Question)
    (t : Session) : Prop where
  /-- the steps are recorded -/
  recorded : t.asked = s.asked ++ log.map Question.step
  /-- the answers are those of the look-up as it was during an event -/
  answered : ∀ q ∈ log, ∃ before event later, events = before ++ event :: later ∧
    ∃ lookup, before.foldl Event.lookup s.context.lookup = some lookup ∧ lookup q.step = q.answer
  /-- the outputs that are kept are those before and those that were told -/
  asks : Asks s.context.outputs log t.context.outputs
  /-- nothing else is different in the context but what the look-up answers -/
  eq_outputs : t.context = { s.context with
    outputs := t.context.outputs, lookup := events.foldl Event.lookup s.context.lookup }

namespace Event

theorem goesThrough_of_asksTo {s : Session} {event : Event}
    (hlookup : event.lookup s.context.lookup = s.context.lookup) (h : s.AsksTo (event.after s)) :
    ∃ log, s.GoesThrough [event] log (event.after s) := by
  obtain ⟨log, h⟩ := h
  refine ⟨log, h.recorded, fun q hq => ⟨[], event, [], rfl, h.answered q hq⟩, h.asks, ?_⟩
  rw [List.foldl_cons, List.foldl_nil, hlookup]
  exact h.eq_outputs

theorem exists_goesThrough (event : Event) (s : Session) :
    ∃ log, s.GoesThrough [event] log (event.after s) := by
  cases event with
  | substitute text => exact goesThrough_of_asksTo rfl (preserves_substitute text s (.refl s))
  | substituteShell text =>
    exact goesThrough_of_asksTo rfl (preserves_substituteShell text s (.refl s))
  | resolve path => exact goesThrough_of_asksTo rfl (preserves_resolve path s (.refl s))
  | progress answers => exact ⟨[], (List.append_nil _).symm, by simp, .nil _, rfl⟩

end Event

/-- The session after the events, one after the other. -/
def Session.afterEvents (s : Session) (events : List Event) : Session :=
  events.foldl Event.after s

/-- Events ask what each of them asks, one after the other. -/
theorem exists_goesThrough_afterEvents (s : Session) (events : List Event) :
    ∃ log, s.GoesThrough events log (s.afterEvents events) := by
  induction events generalizing s with
  | nil => exact ⟨[], (List.append_nil _).symm, by simp, .nil _, rfl⟩
  | cons event rest ih =>
    obtain ⟨log, h⟩ := event.exists_goesThrough s
    obtain ⟨log', h'⟩ := ih (event.after s)
    have hlookup : (event.after s).context.lookup = event.lookup s.context.lookup := by
      rw [h.eq_outputs]
      rfl
    refine ⟨log ++ log', ?_, ?_, h.asks.append h'.asks, ?_⟩
    · rw [List.map_append, ← List.append_assoc, ← h.recorded]
      exact h'.recorded
    · rw [List.forall_mem_append]
      refine ⟨fun q hq => ?_, fun q hq => ?_⟩
      · obtain ⟨before, first, later, hevents, hanswer⟩ := h.answered q hq
        exact ⟨before, first, later ++ rest, by simpa using congrArg (· ++ rest) hevents, hanswer⟩
      · obtain ⟨before, asking, later, hevents, hanswer⟩ := h'.answered q hq
        rw [hlookup] at hanswer
        exact ⟨event :: before, asking, later, by rw [hevents, List.cons_append], hanswer⟩
    · have heq := h'.eq_outputs
      rw [hlookup, h.eq_outputs] at heq
      exact heq

/-- What becomes of the outputs that are kept, when the look-up is asked some questions during
events. -/
structure Disciplined (c : Context) (events : List Event) (log : List Question) (c' : Context) :
    Prop where
  /-- replaying the questions leads from the outputs before to those after -/
  replayed : c'.outputs = log.foldl Question.learn c.outputs
  /-- variables, builtins, late roots, deferral and clock stay as they are, and so does the look-up,
  as long as no step makes progress -/
  eq_outputs : c' = { c with
    outputs := c'.outputs, lookup := events.foldl Event.lookup c.lookup }
  /-- outputs that are kept stay so -/
  kept : ∀ step outputs, c.outputs.get? step = some outputs →
    c'.outputs.get? step = some outputs
  /-- new ones were told of a step that is done -/
  learnt : ∀ step outputs, c.outputs.get? step = none → c'.outputs.get? step = some outputs →
    ⟨step, some ⟨.done, outputs⟩⟩ ∈ log
  /-- the answers are those of the look-up as it was during an event -/
  answered : ∀ q ∈ log, ∃ before event later, events = before ++ event :: later ∧
    ∃ lookup, before.foldl Event.lookup c.lookup = some lookup ∧ lookup q.step = q.answer
  /-- no step is asked for whose outputs are kept by then -/
  unknown : ∀ before q later, log = before ++ q :: later →
    (before.foldl Question.learn c.outputs).get? q.step = none
  /-- once a step is reported as done it is not asked for again, and its outputs are kept -/
  settled : ∀ before step outputs later, log = before ++ ⟨step, some ⟨.done, outputs⟩⟩ :: later →
    (∀ q ∈ later, q.step ≠ step) ∧ c'.outputs.get? step = some outputs
  /-- so a step that is done whenever it is asked for is so once at most -/
  once : ∀ step, (∀ q ∈ log, q.step = step → ∃ outputs, q.answer = some ⟨.done, outputs⟩) →
    (log.map Question.step).count step ≤ 1

theorem Session.GoesThrough.disciplined {s t : Session} {events : List Event} {log : List Question}
    (h : s.GoesThrough events log t) : Disciplined s.context events log t.context where
  replayed := h.asks.eq_foldl
  eq_outputs := h.eq_outputs
  kept := fun _ _ => h.asks.kept_of_kept
  learnt := fun _ _ => h.asks.mem_of_kept
  answered := h.answered
  unknown := by
    rintro before q later rfl
    exact h.asks.unknown_when_asked
  settled := by
    rintro before step outputs later rfl
    exact h.asks.settled
  once := fun _ => h.asks.count_le_one

/-- Whatever calls are made, however they end, and whatever progress steps make meanwhile, the
look-up is asked some questions, which are recorded, and the outputs that are kept are treated with
discipline. -/
theorem events_disciplined (s : Session) (events : List Event) :
    ∃ log, (s.afterEvents events).asked = s.asked ++ log.map Question.step ∧
      Disciplined s.context events log (s.afterEvents events).context := by
  obtain ⟨log, h⟩ := exists_goesThrough_afterEvents s events
  exact ⟨log, h.recorded, h.disciplined⟩

/-- What is reported of two steps, of which the one is done and the other one may be. -/
def pollAnswers (status : Status) (step : String) : Option Snapshot :=
  if step = "build" then some ⟨.done, [("log", .str "no errors")]⟩
  else if step = "test" then some ⟨status, [("log", .str "passed")]⟩ else none

/-- The outputs of the step that is done are kept though the substitution fails behind them, and the
other step is asked for until it is done. -/
example :
    let s := Session.afterEvents { context := { lookup := some (pollAnswers .running) } }
      [.substitute "{{build.outputs.log}} {{test.outputs.log}}", .resolve "output.build.log",
        .progress (pollAnswers .done), .substituteShell "{{test.outputs.log}}",
        .resolve "output.test.log"]
    s.asked = ["build", "test", "test"] ∧ s.context.outputs.names = ["build", "test"] := by
  decide +kernel

end WorkflowCompiler
