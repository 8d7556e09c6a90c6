import WorkflowCompiler.Proofs.Compilation.Needs

/-!
# Circles among compiled steps

The steps of a compiled tree can be run one after the other if none of them waits for itself,
directly or through others (`WaitsFor`). What a step needs of the steps beside it and around it
never closes a circle: beside it they stand in an order, and no step around a branch waits for
what is inside by such a need. Only a need that leads inward, to a step inside of a branch in
which the needing step does not stand itself (`Workflow.ReachesInto`), can close one, and a tree
is free of circles exactly when none of them does (`Compiler.no_circle_iff`).

The tree is looked at through the steps of the workflow that it comes from, each together with
its batch (`Sibling`).
-/

namespace WorkflowCompiler

open Relation (TransGen ReflTransGen)

/-- A compiled step of the tree waits for another one: it has the id of that among its needs. -/
def WaitsFor (out : List CompiledStep) (a b : CompiledStep) : Prop :=
  InTree out a ∧ InTree out b ∧ b.id ∈ a.needs

/-- A step in its batch. -/
structure Sibling where
  /-- the batch -/
  batch : Batch
  /-- the step -/
  step : Step

namespace Sibling

/-- The id under which the step is compiled. -/
def id (p : Sibling) : String := p.batch.fullId p.step

/-- The needs with which the step is compiled. -/
def needs (p : Sibling) : List String := p.batch.compiledNeeds p.step

/-- It stands in a batch of the workflow that is compiled. -/
def Of (w : Workflow) (p : Sibling) : Prop := w.ReachedBatch p.batch ∧ p.step ∈ p.batch.steps

/-- The compiled step has the id and the needs under which the step is compiled. -/
def Shows (p : Sibling) (c : CompiledStep) : Prop := c.id = p.id ∧ c.needs = p.needs

/-- It stands beside another one, or in a batch around it. -/
def Surrounds (q p : Sibling) : Prop := ReflTransGen Batch.UnderBranch q.batch p.batch

end Sibling

/-- One step of the workflow waits for another one once they are compiled. -/
def Workflow.Waits (w : Workflow) (p q : Sibling) : Prop :=
  p.Of w ∧ q.Of w ∧ q.id ∈ p.needs

/-- A step waits for one that stands neither beside nor around it. -/
def Workflow.ReachesInto (w : Workflow) (p q : Sibling) : Prop := w.Waits p q ∧ ¬ q.Surrounds p

/-! ## Ways along a relation -/

section Ways

variable {α β : Type} {r : α → α → Prop} {s : β → β → Prop}

/-- A way is shown by another one if each member is shown and each step between members is. -/
theorem transGen_of_shown (shows : α → β → Prop) (hshown : ∀ {a b}, r a b → ∃ y, shows b y)
    (hstep : ∀ {a b x y}, r a b → shows a x → shows b y → s x y) {a b : α} (h : TransGen r a b)
    {x y : β} (hx : shows a x) (hy : shows b y) : TransGen s x y := by
  induction h generalizing y with
  | single hab => exact .single (hstep hab hx hy)
  | @tail b c hway hbc ih =>
    have hb : ∃ z, shows b z := by
      cases hway with
      | single h => exact hshown h
      | tail _ h => exact hshown h
    obtain ⟨z, hz⟩ := hb
    exact (ih hz).tail (hstep hbc hz hy)

/-- A way consists of good steps, or one of its steps is not good. -/
theorem transGen_good_or_exists (good : α → α → Prop) {a b : α} (h : TransGen r a b) :
    TransGen (fun x y => r x y ∧ good x y) a b ∨
      ∃ x y, ReflTransGen r a x ∧ r x y ∧ ¬ good x y ∧ ReflTransGen r y b := by
  induction h with
  | @single b hab =>
    by_cases hgood : good a b
    · exact .inl (.single ⟨hab, hgood⟩)
    · exact .inr ⟨a, b, .refl, hab, hgood, .refl⟩
  | @tail b c hway hbc ih =>
    rcases ih with ih | ⟨x, y, hax, hxy, hbad, hyb⟩
    · by_cases hgood : good b c
      · exact .inl (ih.tail ⟨hbc, hgood⟩)
      · exact .inr ⟨b, c, hway.to_reflTransGen, hbc, hgood, .refl⟩
    · exact .inr ⟨x, y, hax, hxy, hbad, hyb.tail hbc⟩

/-- If no circle consists of good steps, then there is a circle exactly when a step that is not
good closes one. -/
theorem acyclic_iff_of_good {good : α → α → Prop}
    (hgood : ∀ a, ¬ TransGen (fun x y => r x y ∧ good x y) a a) :
    (∀ a, ¬ TransGen r a a) ↔ ∀ x y, r x y ∧ ¬ good x y → ¬ ReflTransGen r y x := by
  constructor
  · rintro h x y ⟨hxy, -⟩ hback
    exact h x (.head' hxy hback)
  · intro h a hcircle
    rcases transGen_good_or_exists good hcircle with hall | ⟨x, y, hax, hxy, hbad, hya⟩
    · exact hgood a hall
    · exact h x y ⟨hxy, hbad⟩ (hya.trans hax)

end Ways

/-! ## Declared and compiled steps -/

section Tree

variable {settings : RunSettings} {w : Workflow} {out : List CompiledStep}

theorem CompiledFrom.shows {b : Batch} {s : Step} {c : CompiledStep}
    (h : CompiledFrom settings (b.fullId s) (b.compiledNeeds s) s c) :
    (Sibling.mk b s).Shows c :=
  ⟨h.id_eq, h.needs_eq⟩

/-- The tree has a circle exactly when the steps that it comes from have one. -/
theorem CompiledBatch.no_circle_iff_declared (hout : CompiledBatch settings w.topBatch out) :
    (∀ c, ¬ TransGen (WaitsFor out) c c) ↔ ∀ p, ¬ TransGen w.Waits p p := by
  have hdeclared : ∀ {c}, InTree out c → ∃ p : Sibling, p.Of w ∧ p.Shows c := by
    intro c hc
    obtain ⟨b, hreached, s, hs, hfrom⟩ := hout.exists_from hc
    exact ⟨⟨b, s⟩, ⟨hreached, hs⟩, hfrom.shows⟩
  have hcompiled : ∀ {p : Sibling}, p.Of w → ∃ c, InTree out c ∧ p.Shows c := by
    intro p hp
    obtain ⟨c, hc, hfrom⟩ := hout.exists_inTree hp.1 hp.2
    exact ⟨c, hc, hfrom.shows⟩
  constructor
  · intro h p hcircle
    have hp : p.Of w := by
      cases hcircle with
      | single h => exact h.1
      | tail _ h => exact h.2.1
    obtain ⟨c, hc⟩ := hcompiled hp
    refine h c (transGen_of_shown (fun p c => InTree out c ∧ p.Shows c) ?_ ?_ hcircle hc hc)
    · intro p q hpq
      exact hcompiled hpq.2.1
    · rintro p q a b hpq ⟨ha, hpa⟩ ⟨hb, hqb⟩
      refine ⟨ha, hb, ?_⟩
      rw [hqb.1, hpa.2]
      exact hpq.2.2
  · intro h c hcircle
    have hc : InTree out c := by
      cases hcircle with
      | single h => exact h.1
      | tail _ h => exact h.2.1
    obtain ⟨p, hp⟩ := hdeclared hc
    refine h p (transGen_of_shown (fun c p => p.Of w ∧ p.Shows c) ?_ ?_ hcircle hp hp)
    · intro a b hab
      exact hdeclared hab.2.1
    · rintro a b p q hab ⟨hp, hpa⟩ ⟨hq, hqb⟩
      refine ⟨hp, hq, ?_⟩
      rw [← hqb.1, ← hpa.2]
      exact hab.2.2

/-! ## Needs that do not lead inward -/

/-- Every batch that is reached was compiled. -/
theorem CompiledBatch.exists_of_reachedBatch (hout : CompiledBatch settings w.topBatch out)
    {b : Batch} (h : w.ReachedBatch b) : ∃ steps, CompiledBatch settings b steps := by
  cases h with
  | refl => exact ⟨out, hout⟩
  | tail hway hunder =>
    obtain ⟨p, hp, hbranch, o, t, ht, hinline, rfl⟩ := hunder
    obtain ⟨c, -, hfrom⟩ := hout.exists_inTree hway hp
    obtain ⟨config, ct, -, -, hbatch⟩ := hfrom.exists_target hbranch ht hinline
    exact ⟨ct.steps, hbatch⟩

/-- The steps of a batch can be numbered so that each waits for smaller numbers only. -/
theorem CompiledBatch.exists_rank (hout : CompiledBatch settings w.topBatch out) :
    ∃ rank : Batch → String → Nat, ∀ p q, w.Waits p q → p.batch = q.batch →
      rank q.batch q.id < rank p.batch p.id := by
  classical
  -- a compiled batch is numbered in its order
  have hrank : ∀ b, ∃ rank : String → Nat, ∀ p q, w.Waits p q → p.batch = b → q.batch = b →
      rank q.id < rank p.id := by
    intro b
    by_cases hreached : w.ReachedBatch b
    · obtain ⟨steps, hbatch⟩ := hout.exists_of_reachedBatch hreached
      refine ⟨(steps.map (·.id)).idxOf, ?_⟩
      rintro ⟨b, s⟩ ⟨b', s'⟩ ⟨hp, hq, hneed⟩ rfl rfl
      obtain ⟨c, hc, hfrom⟩ := hbatch.exists_compiled hp.2
      obtain ⟨c', hc', hfrom'⟩ := hbatch.exists_compiled hq.2
      have hmem : (Sibling.mk b' s').id ∈ steps.map (·.id) :=
        List.mem_map.2 ⟨c', hc', hfrom'.id_eq⟩
      have hlt := hbatch.needs_first c hc _ (hfrom.needs_eq ▸ hneed) hmem
      rw [hfrom.id_eq] at hlt
      exact hlt
    · refine ⟨fun _ => 0, ?_⟩
      rintro p q ⟨hp, -, -⟩ rfl -
      exact absurd hp.1 hreached
  choose rank hrank using hrank
  exact ⟨rank, fun p q hpq hbatch => hbatch ▸ hrank p.batch p q hpq rfl hbatch.symm⟩

theorem Batch.eq_or_sizeOf_lt_of_underBranch {b inner : Batch}
    (h : ReflTransGen Batch.UnderBranch b inner) :
    b = inner ∨ sizeOf inner.steps < sizeOf b.steps := by
  induction h with
  | refl => exact .inl rfl
  | tail _ hunder ih =>
    have hlt := hunder.inside.sizeOf_lt
    rcases ih with rfl | ih
    · exact .inr hlt
    · exact .inr (Nat.lt_trans hlt ih)

/-- What steps need of those beside and around them closes no circle: on a way along such needs
the batches grow, or stay the same while the numbers of the steps go down. -/
theorem CompiledBatch.no_circle_outward (hout : CompiledBatch settings w.topBatch out)
    (p : Sibling) :
    ¬ TransGen (fun p q => w.Waits p q ∧ q.Surrounds p) p p := by
  obtain ⟨rank, hrank⟩ := hout.exists_rank
  have hway : ∀ {p q : Sibling}, TransGen (fun p q => w.Waits p q ∧ q.Surrounds p) p q →
      sizeOf p.batch.steps < sizeOf q.batch.steps ∨
        p.batch = q.batch ∧ rank q.batch q.id < rank p.batch p.id := by
    have hstep : ∀ {p q : Sibling}, w.Waits p q ∧ q.Surrounds p →
        sizeOf p.batch.steps < sizeOf q.batch.steps ∨
          p.batch = q.batch ∧ rank q.batch q.id < rank p.batch p.id := by
      rintro p q ⟨hpq, hsurrounds⟩
      rcases Batch.eq_or_sizeOf_lt_of_underBranch hsurrounds with heq | hlt
      · exact .inr ⟨heq.symm, hrank p q hpq heq.symm⟩
      · exact .inl hlt
    intro p q h
    induction h with
    | single hpq => exact hstep hpq
    | tail _ hqr ih =>
      rcases ih with hlt | ⟨heq, hlt⟩ <;> rcases hstep hqr with hlt' | ⟨heq', hlt'⟩
      · exact .inl (Nat.lt_trans hlt hlt')
      · exact .inl (heq' ▸ hlt)
      · exact .inl (heq ▸ hlt')
      · exact .inr ⟨heq.trans heq', Nat.lt_trans hlt' hlt⟩
  intro hcircle
  rcases hway hcircle with hlt | ⟨-, hlt⟩
  · exact Nat.lt_irrefl _ hlt
  · exact Nat.lt_irrefl _ hlt

end Tree

/-! ## Needs that lead inward -/

/-- The full ids of the enclosing batches are those of the steps around a batch. -/
theorem Workflow.exists_surrounding_of_mem_outer {w : Workflow} {b : Batch}
    (hreached : w.ReachedBatch b) {id : String} (hid : id ∈ b.outer) :
    ∃ q : Sibling, q.Of w ∧ ReflTransGen Batch.UnderBranch q.batch b ∧ q.id = id := by
  induction hreached with
  | refl => cases hid
  | tail hway hunder ih =>
    obtain ⟨s, hs, hbranch, o, t, ht, hinline, rfl⟩ := hunder
    have hunder : Batch.UnderBranch _ _ := ⟨s, hs, hbranch, o, t, ht, hinline, rfl⟩
    rcases List.mem_append.1 hid with hid | hid
    · obtain ⟨q, hq, hsurrounds, hqid⟩ := ih hid
      exact ⟨q, hq, hsurrounds.tail hunder, hqid⟩
    · obtain ⟨r, hr, rfl⟩ := List.mem_map.1 hid
      exact ⟨⟨_, r⟩, ⟨hway, hr⟩, .single hunder, rfl⟩

/-- The id of the branch around a batch is that of a step around it. -/
theorem Workflow.exists_surrounding_of_parent {w : Workflow} {b : Batch}
    (hreached : w.ReachedBatch b) {parent : String} (hparent : b.parent = some parent) :
    ∃ q : Sibling, q.Of w ∧ ReflTransGen Batch.UnderBranch q.batch b ∧ q.id = parent := by
  cases hreached with
  | refl => cases hparent
  | tail hway hunder =>
    obtain ⟨s, hs, hbranch, o, t, ht, hinline, rfl⟩ := hunder
    cases hparent
    exact ⟨⟨_, s⟩, ⟨hway, hs⟩, .single ⟨s, hs, hbranch, o, t, ht, hinline, rfl⟩, rfl⟩

/-- A need that leads inward names a child of a sibling, or its id is also that of a step beside
or around the one that needs it. -/
theorem Workflow.ReachesInto.child_or_shared {w : Workflow} {p q : Sibling}
    (h : w.ReachesInto p q) :
    (q.id ∈ p.step.needs ∧ q.id ∉ p.batch.ids ∧ q.id ∉ p.batch.outer) ∨
      ∃ other, w.Waits p other ∧ other.Surrounds p ∧ other.id = q.id := by
  obtain ⟨⟨hp, hq, hneed⟩, -⟩ := h
  have hshared : (∃ other : Sibling, other.Of w ∧ other.Surrounds p ∧ other.id = q.id) →
      ∃ other, w.Waits p other ∧ other.Surrounds p ∧ other.id = q.id := by
    rintro ⟨other, hother, hsurrounds, hid⟩
    exact ⟨other, ⟨hp, hother, hid ▸ hneed⟩, hsurrounds, hid⟩
  -- a need as it was declared, of a step of any batch
  have hverbatim : q.id ∈ p.step.needs → q.id ∉ p.batch.ids →
      (q.id ∈ p.step.needs ∧ q.id ∉ p.batch.ids ∧ q.id ∉ p.batch.outer) ∨
        ∃ other : Sibling, other.Of w ∧ other.Surrounds p ∧ other.id = q.id := by
    intro hdeclared hids
    by_cases houter : q.id ∈ p.batch.outer
    · exact .inr (Workflow.exists_surrounding_of_mem_outer hp.1 houter)
    · exact .inl ⟨hdeclared, hids, houter⟩
  rw [Sibling.needs, Batch.compiledNeeds] at hneed
  rcases hparent : p.batch.parent with _ | parent
  · rw [hparent] at hneed
    by_cases hids : q.id ∈ p.batch.ids
    · obtain ⟨r, hr, hrid⟩ := List.mem_map.1 hids
      refine .inr (hshared ⟨⟨p.batch, r⟩, ⟨hp.1, hr⟩, .refl, ?_⟩)
      rw [Sibling.id, Batch.fullId, hparent]
      exact hrid
    · exact (hverbatim hneed hids).imp_right hshared
  · rw [hparent] at hneed
    rcases mem_inlineNeeds_iff.1 hneed with
      ⟨sibling, -, hsibling, hid⟩ | ⟨hdeclared, hids⟩ | ⟨hid, -⟩
    · obtain ⟨r, hr, rfl⟩ := List.mem_map.1 hsibling
      refine .inr (hshared ⟨⟨p.batch, r⟩, ⟨hp.1, hr⟩, .refl, ?_⟩)
      rw [hid, Sibling.id, Batch.fullId, hparent]
    · exact (hverbatim hdeclared hids).imp_right hshared
    · rw [hid] at hshared ⊢
      exact .inr (hshared (Workflow.exists_surrounding_of_parent hp.1 hparent))

/-- The compiled steps of a workflow are free of circles exactly when no need that leads inward
closes one. Such a need names a child of a sibling, or an id that two steps of the tree have. -/
theorem Compiler.no_circle_iff {c : Compiler} {d : Disk} {w : Workflow} {inputs : Fields String}
    {out : List CompiledStep} (h : (c.compile d w inputs).1 = .ok out) :
    ((∀ r, ¬ TransGen (WaitsFor out) r r) ↔
      ∀ p q, w.ReachesInto p q → ¬ ReflTransGen w.Waits q p) ∧
    ∀ p q, w.ReachesInto p q →
      (q.id ∈ p.step.needs ∧ q.id ∉ p.batch.ids ∧ q.id ∉ p.batch.outer) ∨
        ∃ other, w.Waits p other ∧ other.Surrounds p ∧ other.id = q.id := by
  have hout := (CompiledBatch.of_workflow_yields (yields_of_compile h)).2
  refine ⟨?_, fun p q hpq => hpq.child_or_shared⟩
  rw [hout.no_circle_iff_declared]
  exact acyclic_iff_of_good hout.no_circle_outward

/-! ## A circle through a branch -/

/-- A report inside of a branch, which may need something. -/
def auditReport (needs : List String) : Step :=
  { id := "report", executor := some "shell", command := some "make report", needs }

/-- The branch around the report. -/
def auditBranch (needs : List String) : Step :=
  { id := "check", executor := some "branch", condition := some "make test",
    onTrue := some { inline := [auditReport needs] } }

/-- A step that needs the report inside of the branch. -/
def auditDeploy : Step :=
  { id := "deploy", executor := some "shell", command := some "make deploy",
    needs := ["check.report"] }

/-- A workflow of these steps. -/
def auditWorkflow (needs : List String) : Workflow :=
  { name := "audit", steps := [auditDeploy, auditBranch needs] }

/-- The batch of the report. -/
def auditBatch (needs : List String) : Batch where
  parent := some "check"
  outer := ["deploy", "check"]
  steps := [auditReport needs]

theorem underBranch_auditBatch (needs : List String) :
    (auditWorkflow needs).topBatch.UnderBranch (auditBatch needs) :=
  ⟨auditBranch needs, List.mem_cons_of_mem _ List.mem_cons_self,
    ⟨⟨.branch, false, none⟩, rfl, rfl⟩, .onTrue, _, rfl, List.cons_ne_nil _ _, rfl⟩

/-- The compiled steps are these three. -/
theorem sibling_of_auditWorkflow {needs : List String} {p : Sibling}
    (h : p.Of (auditWorkflow needs)) :
    p = ⟨(auditWorkflow needs).topBatch, auditDeploy⟩ ∨
      p = ⟨(auditWorkflow needs).topBatch, auditBranch needs⟩ ∨
      p = ⟨auditBatch needs, auditReport needs⟩ := by
  have hbatch : ∀ {b : Batch}, (auditWorkflow needs).ReachedBatch b →
      b = (auditWorkflow needs).topBatch ∨ b = auditBatch needs := by
    intro b hreached
    induction hreached with
    | refl => exact .inl rfl
    | tail _ hunder ih =>
      obtain ⟨s, hs, -, o, t, ht, -, rfl⟩ := hunder
      -- the branch has one target, and the other steps have none
      rcases ih with rfl | rfl
      · rcases List.mem_cons.1 hs with rfl | hs
        · cases o <;> cases ht
        · rw [List.mem_singleton.1 hs] at ht ⊢
          cases o with
          | onTrue =>
            cases ht
            exact .inr rfl
          | onFalse => cases ht
          | onTimeout => cases ht
      · rw [List.mem_singleton.1 hs] at ht
        cases o <;> cases ht
  obtain ⟨b, s⟩ := p
  obtain ⟨hreached, hs⟩ := h
  rcases hbatch hreached with rfl | rfl
  · rcases List.mem_cons.1 hs with rfl | hs
    · exact .inl rfl
    · cases List.mem_singleton.1 hs
      exact .inr (.inl rfl)
  · cases List.mem_singleton.1 hs
    exact .inr (.inr rfl)

theorem exists_compile_auditWorkflow (needs : List String)
    (h : ((Compiler.mk { workflowId := "run" } {}).compile {} (auditWorkflow needs)
      []).1.toOption.isSome = true) :
    ∃ out, ((Compiler.mk { workflowId := "run" } {}).compile {} (auditWorkflow needs) []).1 =
      .ok out :=
  Attempt.exists_eq_ok_of_isSome h

/-- How many steps have to end before one of them, if the report needs nothing. -/
def auditLevel (id : String) : Nat :=
  if id = "deploy" then 2 else if id = "check.report" then 1 else 0

theorem auditLevel_lt {p q : Sibling} (h : (auditWorkflow []).Waits p q) :
    auditLevel q.id < auditLevel p.id := by
  obtain ⟨hp, hq, hneed⟩ := h
  rcases sibling_of_auditWorkflow hp with rfl | rfl | rfl <;>
    rcases sibling_of_auditWorkflow hq with rfl | rfl | rfl <;>
    exact (by decide : _ ∈ _ → _ < _) hneed

/-- If the report needs nothing, there is a need that leads inward, and yet no circle. -/
theorem auditWorkflow_no_circle :
    ∃ out, ((Compiler.mk { workflowId := "run" } {}).compile {} (auditWorkflow []) []).1 =
      .ok out ∧ (∃ p q, (auditWorkflow []).ReachesInto p q) ∧
        ∀ r, ¬ TransGen (WaitsFor out) r r := by
  obtain ⟨out, hout⟩ := exists_compile_auditWorkflow [] (by decide +kernel)
  refine ⟨out, hout, ?_, (Compiler.no_circle_iff hout).1.2 ?_⟩
  · have hunder := underBranch_auditBatch []
    refine ⟨⟨_, auditDeploy⟩, ⟨_, auditReport []⟩,
      ⟨⟨.refl, List.mem_cons_self⟩, ⟨.single hunder, List.mem_cons_self⟩, by decide⟩, fun h => ?_⟩
    rcases Batch.eq_or_sizeOf_lt_of_underBranch h with heq | hlt
    · cases congrArg Batch.parent heq
    · exact Nat.lt_asymm hlt hunder.inside.sizeOf_lt
  · rintro p q ⟨hpq, -⟩ hback
    have hlevel : ∀ {a b}, TransGen (auditWorkflow []).Waits a b →
        auditLevel b.id < auditLevel a.id := by
      intro a b hway
      induction hway with
      | single hab => exact auditLevel_lt hab
      | tail _ hbc ih => exact Nat.lt_trans (auditLevel_lt hbc) ih
    exact Nat.lt_irrefl _ (hlevel (.head' hpq hback))

/-- If the report needs the step that needs it, the two wait for each other. -/
theorem auditWorkflow_circle :
    ∃ out, ((Compiler.mk { workflowId := "run" } {}).compile {} (auditWorkflow ["deploy"]) []).1 =
      .ok out ∧ ¬ ∀ r, ¬ TransGen (WaitsFor out) r r := by
  obtain ⟨out, hout⟩ := exists_compile_auditWorkflow ["deploy"] (by decide +kernel)
  refine ⟨out, hout, fun hnone => ?_⟩
  have hbatch := (CompiledBatch.of_workflow_yields (yields_of_compile hout)).2
  obtain ⟨deploy, hdeploy, hdeployFrom⟩ := hbatch.exists_inTree .refl List.mem_cons_self
  obtain ⟨report, hreport, hreportFrom⟩ :=
    hbatch.exists_inTree (.single (underBranch_auditBatch ["deploy"])) List.mem_cons_self
  have hfirst : WaitsFor out deploy report := by
    refine ⟨hdeploy, hreport, ?_⟩
    rw [hdeployFrom.needs_eq, hreportFrom.id_eq]
    decide
  have hsecond : WaitsFor out report deploy := by
    refine ⟨hreport, hdeploy, ?_⟩
    rw [hreportFrom.needs_eq, hdeployFrom.id_eq]
    decide
  exact hnone deploy (.head hfirst (.single hsecond))

end WorkflowCompiler
