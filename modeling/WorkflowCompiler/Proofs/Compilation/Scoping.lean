import WorkflowCompiler.Proofs.Compilation.Isolation

/-!
# How long names are bound late

Around the fields of a repetition its names are bound late, and they are unbound after it whether
its fields compiled or not. So inline steps leave no name behind (`Composed.keeps`), and every name
that was bound late before stays so (`Composed.preserves_late`), with one exception: a repetition
also unbinds a name that had been bound late before it was begun (`Releases`). Hence inline steps
that compile leave exactly those names bound late that were so before and that no repetition among
them takes for its items (`Compiler.late_iff_of_compileInline`).
-/

namespace WorkflowCompiler

open Attempt Relation

/-- A repetition of the batch, or of one inside it that is compiled, takes the name for its
items. -/
def Batch.Repeats (b : Batch) (name : String) : Prop :=
  ∃ inner, ReflTransGen Batch.UnderBranch b inner ∧
    ∃ s ∈ inner.steps, (∃ cl, s.classify? = some cl ∧ cl.executor = .foreach) ∧
      name ∈ s.repetitionRoots

section Late

variable {settings : RunSettings} {id name root parent : String} {s : Step} {steps : List Step}
  {α β : Type}

/-! ## Names that stay bound late -/

/-- Where no repetition takes the name, it stays bound late, however the computation ends. -/
theorem Composed.preserves_late {A : Allowance} {late : List String} {x : Compiling α}
    (h : Composed A late x) (hroot : root ≠ agentRoot)
    (hnames : ∀ names, A.names names → root ∉ names) :
    x.Preserves (Session.Where (root ∈ ·.late)) := by
  have hremembers : ∀ {c c' : Context}, root ∈ c.late → c.Remembers c' → root ∈ c'.late :=
    fun hmem hc => (hc.alike.late_iff root).2 hmem
  induction h with
  | pure _ => exact fun t ht => ht
  | ofExcept _ => exact fun t ht => ht
  | text _ => exact (reads_text _ _ _).preserves hremembers
  | command _ => exact preserves_command hremembers _ _ _ _
  | enter _ =>
    intro t ht
    change root ∈ (t.context.enter _).late
    rwa [Context.mem_late_enter, if_neg hroot]
  | nameAgent _ _ =>
    exact preserves_nameAgent hremembers
      (fun agent hmem => Context.mem_late_withAgent.2 ⟨hmem, hroot⟩) _ _ _
  | @repeating names _ x hallowed _ ih =>
    intro t ht
    have hbound : root ∈ (t.context.bindAll names).late := Context.mem_late_bindAll.2 (.inr ht)
    have hkept := ih (t.update (·.bindAll names)) hbound
    exact Context.mem_late_unbindAll.2 ⟨hkept, hnames names hallowed⟩
  | bind _ _ ihx ihf => exact ihx.bind ihf

/-- Inline steps leave a name bound late that no repetition among them takes for its items. -/
theorem late_of_not_repeats (settings : RunSettings) (hroot : root ≠ agentRoot)
    (hrepeats : ¬ Batch.Repeats { parent := some parent, steps } root) :
    (compileInline settings steps parent).Preserves (Session.Where (root ∈ ·.late)) := by
  have hwithin : Batch.Within ⟨fun _ _ => True, fun _ => True, fun names => root ∉ names⟩
      { parent := some parent, steps } := by
    refine fun inner hway s hs => ⟨⟨fun _ _ => trivial, fun cl hclass hforeach hmem => ?_⟩, trivial⟩
    exact hrepeats ⟨inner, hway, s, hs, ⟨cl, hclass, hforeach⟩, hmem⟩
  exact (composed_compileInline hwithin fun _ _ => trivial).preserves_late hroot fun _ h => h

/-- What is composed binds no name late for good. -/
theorem Composed.preserves_not_late {A : Allowance} {x : Compiling α} (h : Composed A [] x)
    (hroot : root ≠ agentRoot) : x.Preserves (Session.Where (root ∉ ·.late)) := by
  intro t ht hmem
  rcases (h.keeps t).late_sub root hmem with hmem | ⟨hagent, -⟩
  · exact ht hmem
  · exact hroot hagent

/-! ## Names that are unbound -/

/-- Where the computation has a result, the name is no longer bound late. -/
def Releases (name : String) (x : Compiling α) : Prop :=
  ∀ t a, (x t).1 = .ok a → name ∉ (x t).2.context.late

namespace Releases

theorem bind_left {x : Compiling α} {f : α → Compiling β} (hx : Releases root x)
    (hroot : root ≠ agentRoot) (hf : ∀ a, Composed .any [] (f a)) : Releases root (x >>= f) := by
  intro t b h
  obtain ⟨a, t', ha, -⟩ := bind_eq_ok (Prod.ext h rfl)
  have hreleased := hx t a (congrArg Prod.fst ha)
  rw [ha] at hreleased
  rw [bind_apply_of_ok ha]
  exact (hf a).preserves_not_late hroot t' hreleased

theorem bind_right {x : Compiling α} {f : α → Compiling β} (hf : ∀ a, Releases root (f a)) :
    Releases root (x >>= f) := by
  intro t b h
  obtain ⟨a, t', ha, hb⟩ := bind_eq_ok (Prod.ext h rfl)
  rw [bind_apply_of_ok ha]
  exact hf a t' b (congrArg Prod.fst hb)

theorem fail {e : CompileError} : Releases root (Attempt.fail e : Compiling α) := nofun

theorem each {f : α → Compiling β} {l : List α} {a : α} (ha : a ∈ l) (h : Releases root (f a))
    (hroot : root ≠ agentRoot) (hf : ∀ a, Composed .any [] (f a)) :
    Releases root (Attempt.each f l) := by
  induction l with
  | nil => exact absurd ha List.not_mem_nil
  | cons first l ih =>
    rw [each_cons]
    rcases List.mem_cons.1 ha with rfl | ha
    · exact h.bind_left hroot fun _ => .bind (.each fun a _ => hf a) fun _ => .pure _
    · exact bind_right fun _ => (ih ha).bind_left hroot fun _ => .pure _

end Releases

theorem releases_repeating {names : List String} (h : root ∈ names) (x : Compiling α) :
    Releases root (repeating names x) :=
  fun _ _ _ hmem => (Context.mem_late_unbindAll.1 hmem).2 h

/-- A repetition that compiles unbinds its names. -/
theorem releases_foreachConfig {d : Declaration} (h : root ∈ d.repetitionRoots) :
    Releases root (foreachConfig id d) := by
  have hfields : Releases root (repeating d.repetitionRoots (foreachFields id d)) :=
    releases_repeating h _
  rw [foreachConfig]
  cases d.items with
  | none =>
    cases d.itemsFile with
    | none => exact .fail
    | some file => exact hfields
  | some items =>
    cases d.itemsFile with
    | none => exact hfields
    | some file => exact .fail

/-- What the configuration of a step unbinds, the step does. -/
theorem releases_compileStep {cl : Classification} (hroot : root ≠ agentRoot)
    (hclass : s.classify? = some cl) (h : Releases root (compileConfig settings id s cl)) :
    Releases root (compileStep settings id s) := by
  rw [compileStep_eq_entered, compileEntered, hclass]
  exact .bind_right fun _ => .bind_right fun _ => .bind_right fun _ =>
    h.bind_left hroot fun _ => .pure _

/-- What an outcome of a branch unbinds, the branch does. -/
theorem releases_compileConfig {cl : Classification} (hroot : root ≠ agentRoot)
    (hexecutor : cl.executor = .branch) {o : Outcome}
    (h : Releases root (compileOutcome settings id o.name (s.target? o))) :
    Releases root (compileConfig settings id s cl) := by
  have hany := composed_any_outcome settings id
  rw [compileConfig, hexecutor]
  refine .bind_right fun _ => ?_
  cases o with
  | onTrue =>
    exact h.bind_left hroot fun _ => .bind (hany _ _) fun _ => .bind (hany _ _) fun _ => .pure _
  | onFalse =>
    exact .bind_right fun _ => h.bind_left hroot fun _ => .bind (hany _ _) fun _ => .pure _
  | onTimeout =>
    exact .bind_right fun _ => .bind_right fun _ => h.bind_left hroot fun _ => .pure _

/-- What inline steps of a target unbind, its outcome does. -/
theorem releases_compileOutcome {t : Target Step} (hroot : root ≠ agentRoot)
    (hinline : t.inline ≠ []) (h : Releases root (compileInline settings t.inline id)) :
    Releases root (compileOutcome settings id name (some t)) := by
  rw [compileOutcome_some, if_neg hinline]
  exact h.bind_left hroot fun _ => .bind (.optional fun _ _ => trivial) fun _ =>
    .bind (.values fun _ _ => trivial) fun _ => .pure _

/-- What one of the inline steps unbinds, all of them do. -/
theorem releases_compileInline_of_mem (hroot : root ≠ agentRoot) (hs : s ∈ steps)
    (h : Releases root (compileStep settings (fullId (some parent) s.id) s)) :
    Releases root (compileInline settings steps parent) := by
  rw [compileInline, inlineBatch, compileMembers_eq_each]
  refine .bind_right fun _ => .bind_left ?_ hroot fun compiled => .ofExcept fun e he => ?_
  · refine .each hs ?_ hroot fun i => composed_any_member settings parent _ i
    exact h.bind_left hroot fun _ => .pure _
  · obtain ⟨path, rfl⟩ := inOrder_eq_error he
    exact fun h => h

/-- Inline steps that compile leave no name bound late that a repetition among them takes for its
items. -/
theorem releases_compileInline {b : Batch} (hroot : root ≠ agentRoot) (h : b.Repeats root)
    (parent : String) : Releases root (compileInline settings b.steps parent) := by
  obtain ⟨inner, hway, s, hs, ⟨cl, hclass, hforeach⟩, hmem⟩ := h
  induction hway using ReflTransGen.head_induction_on generalizing parent with
  | refl =>
    refine releases_compileInline_of_mem hroot hs (releases_compileStep hroot hclass ?_)
    rw [compileConfig, hforeach]
    exact (releases_foreachConfig hmem).bind_left hroot fun _ => .pure _
  | head hunder _ ih =>
    -- the batch inside stands in a target of a branch
    obtain ⟨p, hp, ⟨cl', hclass', hbranch⟩, o, t, ht, hinline, rfl⟩ := hunder
    refine releases_compileInline_of_mem hroot hp (releases_compileStep hroot hclass' ?_)
    refine releases_compileConfig hroot hbranch (o := o) ?_
    rw [ht]
    exact releases_compileOutcome hroot hinline (ih _)

end Late

/-! ## What inline steps leave bound late -/

/-- Inline steps bind no name late for good, and leave bound late what no repetition among them
takes for its items, whether they compile or not. If they compile, nothing that a repetition takes
is left. -/
theorem Compiler.late_iff_of_compileInline (c : Compiler) (steps : List Step) (parent : String)
    {root : String} (hroot : root ≠ agentRoot) :
    (root ∈ (c.compileInline steps parent).2.session.context.late →
      root ∈ c.session.context.late) ∧
    (root ∈ c.session.context.late →
      ¬ Batch.Repeats { parent := some parent, steps } root →
        root ∈ (c.compileInline steps parent).2.session.context.late) ∧
    ∀ out, (c.compileInline steps parent).1 = .ok out →
      (root ∈ (c.compileInline steps parent).2.session.context.late ↔
        root ∈ c.session.context.late ∧
          ¬ Batch.Repeats { parent := some parent, steps } root) := by
  have hgains : root ∈ (c.compileInline steps parent).2.session.context.late →
      root ∈ c.session.context.late := by
    intro hafter
    by_contra hbefore
    exact (composed_any_inline c.settings steps parent).preserves_not_late hroot c.session
      hbefore hafter
  have hkeeps : root ∈ c.session.context.late →
      ¬ Batch.Repeats { parent := some parent, steps } root →
        root ∈ (c.compileInline steps parent).2.session.context.late :=
    fun hbefore hrepeats => late_of_not_repeats c.settings hroot hrepeats c.session hbefore
  refine ⟨hgains, hkeeps, fun out hout => ⟨fun hafter => ⟨hgains hafter, fun hrepeats => ?_⟩, ?_⟩⟩
  · exact releases_compileInline hroot hrepeats parent c.session out hout hafter
  · rintro ⟨hbefore, hrepeats⟩
    exact hkeeps hbefore hrepeats

/-- A compiler in whose context a name is bound late. -/
def compilerBinding (name : String) : Compiler where
  settings := { workflowId := "run" }
  session := { context := ({ deferred := true } : Context).bindLate name }

/-- Inline steps with a repetition for two items. -/
def buildSteps : List Step :=
  [{ id := "each", executor := some "foreach", template := some "build", items := some "a b" }]

/-- A name that the repetition does not take is bound late after it. -/
theorem buildSteps_keeps :
    ∃ out, ((compilerBinding "region").compileInline buildSteps "check").1 = .ok out ∧
      "region" ∈ ((compilerBinding "region").compileInline buildSteps
        "check").2.session.context.late ∧
      ¬ Batch.Repeats { parent := some "check", steps := buildSteps } "region" := by
  have hcompiles : ((compilerBinding "region").compileInline buildSteps
      "check").1.toOption.isSome = true := by
    decide +kernel
  have hmem : "region" ∈ ((compilerBinding "region").compileInline buildSteps
      "check").2.session.context.late := by
    decide +kernel
  obtain ⟨out, hok⟩ := exists_eq_ok_of_isSome hcompiles
  have hroot : "region" ≠ agentRoot := by decide
  obtain ⟨-, -, hiff⟩ :=
    Compiler.late_iff_of_compileInline (compilerBinding "region") buildSteps "check" hroot
  exact ⟨out, hok, hmem, ((hiff out hok).1 hmem).2⟩

/-- The name that the repetition takes for its items is not, though nobody else unbound it. -/
theorem buildSteps_unbinds :
    ∃ out, ((compilerBinding "item").compileInline buildSteps "check").1 = .ok out ∧
      "item" ≠ agentRoot ∧
      "item" ∈ (compilerBinding "item").session.context.late ∧
      "item" ∉ ((compilerBinding "item").compileInline buildSteps
        "check").2.session.context.late := by
  have hcompiles : ((compilerBinding "item").compileInline buildSteps
      "check").1.toOption.isSome = true := by
    decide +kernel
  obtain ⟨out, hok⟩ := exists_eq_ok_of_isSome hcompiles
  exact ⟨out, hok, by decide, by decide, by decide +kernel⟩

end WorkflowCompiler
