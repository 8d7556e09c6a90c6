import WorkflowCompiler.Proofs.Compilation.Composed
import WorkflowCompiler.Proofs.Context.Substitution
import WorkflowCompiler.Proofs.Simulations

/-!
# Compiling in related contexts

A relation between contexts that everything a compilation does keeps up, and under which the
second context resolves whatever the first one resolves, is a `Coupling`. What compiles in the
first one compiles to the same in the second one (`Composed.simulates`).

Contexts that agree are coupled (`coupling_alike`).
-/

namespace WorkflowCompiler

open Attempt

/-- The relation is kept up by everything a compilation does to both contexts, and the second
one resolves whatever the first one resolves. -/
structure Coupling (R : Context → Context → Prop) : Prop where
  /-- what is resolved is resolved to the same -/
  refines : ∀ {c c' : Context}, R c c' → c.Refines c'
  /-- resolving keeps outputs -/
  remembers : ∀ {c c' d d' : Context}, R c c' → c.Remembers d → c'.Remembers d' → R d d'
  /-- a step is entered -/
  enter : ∀ {c c' : Context} (id : String), R c c' → R (c.enter id) (c'.enter id)
  /-- the agent of a step is bound -/
  withAgent : ∀ {c c' : Context} (agent : String), R c c' →
    R (c.withAgent agent) (c'.withAgent agent)
  /-- names are bound late -/
  bindAll : ∀ {c c' : Context} (names : List String), R c c' →
    R (c.bindAll names) (c'.bindAll names)
  /-- names are no longer bound late -/
  unbindAll : ∀ {c c' : Context} (names : List String), R c c' →
    R (c.unbindAll names) (c'.unbindAll names)

/-! ## Simulations -/

section Simulates

variable {R : Context → Context → Prop} {α : Type}

/-- Computations that read related contexts end alike if the first one has a result. -/
theorem Reads.simulates (hR : Coupling R) {x : Compiling α} {f : Context → Except CompileError α}
    (hx : Reads x f) (hf : ∀ c c', c.Refines c' → ∀ a, f c = .ok a → f c' = .ok a) :
    Simulates (InvImage R Session.context) x x := by
  intro s t hst a s' hs
  obtain ⟨s'', hreads, hremembers⟩ := hx s
  obtain ⟨t', hreads', hremembers'⟩ := hx t
  rw [hreads, Prod.mk.injEq] at hs
  obtain ⟨hresult, rfl⟩ := hs
  rw [hf _ _ (hR.refines hst) a hresult] at hreads'
  exact ⟨t', hreads', hR.remembers hst hremembers hremembers'⟩

theorem simulates_text (hR : Coupling R) (step field value : String) :
    Simulates (InvImage R Session.context) (Compiling.text step field value)
      (Compiling.text step field value) := by
  refine ((reads_substitute value).mapError _).simulates hR fun c c' hrefines a ha => ?_
  rw [hrefines.substituteIn_eq (eq_ok_of_mapError_eq_ok ha)]
  rfl

theorem simulates_command (hR : Coupling R) (quoted : Bool) (step field value : String) :
    Simulates (InvImage R Session.context) (Compiling.command quoted step field value)
      (Compiling.command quoted step field value) := by
  cases quoted with
  | false => exact simulates_text hR step field value
  | true =>
    refine ((reads_substituteShell value).mapError _).simulates hR fun c c' hrefines a ha => ?_
    rw [hrefines.substituteShellIn_eq (eq_ok_of_mapError_eq_ok ha)]
    rfl

theorem simulates_update {f : Context → Context} (h : ∀ c c', R c c' → R (f c) (f c')) :
    Simulates (InvImage R Session.context) (Compiling.update f) (Compiling.update f) :=
  simulates_change fun s t hst => h s.context t.context hst

theorem simulates_nameAgent (hR : Coupling R) (settings : RunSettings) (id : String)
    (d : Declaration) :
    Simulates (InvImage R Session.context) (nameAgent settings id d) (nameAgent settings id d) := by
  refine Simulates.bind ?_ fun agent => ?_
  · rw [agentOf]
    cases d.agentName with
    | none => exact simulates_pure _
    | some raw => exact (simulates_text hR id _ raw).bind fun _ => simulates_pure _
  · cases agent with
    | none => exact simulates_pure _
    | some agent => exact simulates_update fun c c' => hR.withAgent agent

/-- What is composed has every result in the second context that it has in the first one. -/
theorem Composed.simulates (hR : Coupling R) {A : Allowance} {late : List String}
    {x : Compiling α} (h : Composed A late x) : Simulates (InvImage R Session.context) x x := by
  induction h with
  | pure a => exact simulates_pure a
  | ofExcept _ => exact simulates_ofExcept _
  | text _ => exact simulates_text hR _ _ _
  | command _ => exact simulates_command hR _ _ _ _
  | enter _ => exact simulates_update fun c c' => hR.enter _
  | nameAgent _ _ => exact simulates_nameAgent hR _ _ _
  | repeating _ _ ih =>
    refine (simulates_update fun c c' => hR.bindAll _).bind fun _ => ih.ensuring fun s t => ?_
    exact hR.unbindAll _
  | bind _ _ ihx ihf => exact ihx.bind ihf

end Simulates

/-! ## Computations that match -/

section Matches

variable {R : Context → Context → Prop} {α : Type}

/-- Computations that read the same off related contexts end alike. -/
theorem Reads.matches_of_eq
    (hR : ∀ {c c' d d' : Context}, R c c' → c.Remembers d → c'.Remembers d' → R d d')
    {x : Compiling α} {f : Context → Except CompileError α} (hx : Reads x f)
    (hf : ∀ c c', R c c' → f c' = f c) : Matches (InvImage R Session.context) x x := by
  intro s t hst
  obtain ⟨s', hs, hremembers⟩ := hx s
  obtain ⟨t', ht, hremembers'⟩ := hx t
  rw [hs, ht]
  exact ⟨(hf _ _ hst).symm, hR hst hremembers hremembers'⟩

/-- While names are bound late, only texts are substituted. If related contexts make the same of
these, everything ends alike. -/
theorem Composed.matches_of_texts
    (hR : ∀ {c c' d d' : Context}, R c c' → c.Remembers d → c'.Remembers d' → R d d')
    {A : Allowance} (htext : ∀ late v, A.text late v → ∀ c c', R c c' →
      c'.substituteIn v = c.substituteIn v ∧ c'.substituteShellIn v = c.substituteShellIn v)
    {late : List String} {x : Compiling α} (h : Composed A late x) (hlate : late ≠ []) :
    Matches (InvImage R Session.context) x x := by
  induction h with
  | pure a => exact matches_pure a
  | ofExcept _ => exact matches_ofExcept _
  | text hallowed =>
    refine ((reads_substitute _).mapError _).matches_of_eq hR fun c c' h => ?_
    rw [(htext _ _ hallowed c c' h).1]
  | @command _ quoted _ _ _ hallowed =>
    cases quoted with
    | false =>
      refine ((reads_substitute _).mapError _).matches_of_eq hR fun c c' h => ?_
      rw [(htext _ _ hallowed c c' h).1]
    | true =>
      refine ((reads_substituteShell _).mapError _).matches_of_eq hR fun c c' h => ?_
      rw [(htext _ _ hallowed c c' h).2]
  | enter _ => exact absurd rfl hlate
  | nameAgent _ _ => exact absurd rfl hlate
  | repeating _ _ _ => exact absurd rfl hlate
  | bind _ _ ihx ihf => exact (ihx hlate).bind fun a => ihf a hlate

end Matches

/-! ## Contexts that agree -/

namespace Context.Alike

variable {c c' : Context}

theorem of_late (h : c.Alike c') {d d' : Context} (hd : ∃ late, d = { c with late })
    (hd' : ∃ late, d' = { c' with late }) (hlate : ∀ name, name ∈ d'.late ↔ name ∈ d.late) :
    d.Alike d' := by
  obtain ⟨hground, hdeferred, hbuiltins⟩ := eq_of_late_only hd
  obtain ⟨hground', hdeferred', hbuiltins'⟩ := eq_of_late_only hd'
  refine ⟨(hground.symm.trans h.toSameGround).trans hground', fun name => ?_, hlate, ?_⟩
  · rw [hbuiltins', hbuiltins, h.builtins_eq]
  · rw [hdeferred', hdeferred, h.deferred_eq]

end Context.Alike

/-- Contexts that agree compile everything alike. -/
theorem coupling_alike : Coupling Context.Alike where
  refines := Context.Alike.refines
  remembers := fun h hd hd' => (hd.alike.symm.trans h).trans hd'.alike
  enter := fun {c c'} id h => by
    refine ⟨?_, fun name => ?_, fun name => ?_, ?_⟩
    · exact ((c.sameGround_enter id).symm.trans h.toSameGround).trans (c'.sameGround_enter id)
    · rw [Context.builtins_enter, Context.builtins_enter, h.builtins_eq]
    · rw [Context.mem_late_enter, Context.mem_late_enter, h.deferred_eq, h.vars_eq, h.late_iff]
    · rw [Context.deferred_enter, Context.deferred_enter, h.deferred_eq]
  withAgent := fun agent h => by
    refine ⟨⟨h.vars_eq, h.known_eq, h.lookup_eq, h.clock_eq⟩, fun name => ?_, fun name => ?_,
      h.deferred_eq⟩
    · rw [Context.builtins_withAgent, Context.builtins_withAgent, h.builtins_eq]
    · rw [Context.mem_late_withAgent, Context.mem_late_withAgent, h.late_iff]
  bindAll := fun {c c'} names h => by
    refine h.of_late (c.exists_bindAll names) (c'.exists_bindAll names) fun name => ?_
    rw [Context.mem_late_bindAll, Context.mem_late_bindAll, h.late_iff]
  unbindAll := fun {c c'} names h => by
    refine h.of_late (c.exists_unbindAll names) (c'.exists_unbindAll names) fun name => ?_
    rw [Context.mem_late_unbindAll, Context.mem_late_unbindAll, h.late_iff]

end WorkflowCompiler
