import WorkflowCompiler.Proofs.Compilation.Circles

/-!
# What the ids of compiled steps tell apart

A step of a compiled tree stands at a `Position`: among the outermost steps or, at any depth,
among the inline steps of an outcome. Steps under different outcomes of one branch may have the
same id, as only one of the outcomes is gone on with; other steps should not (`TellsApart`).

An inline step is compiled under the id of its branch, a point and its own id. So beside each
other, two steps can only hold steps with a common id if the id of one of them is that of a
branch beside it, with a point and a text behind it. The ids of a tree tell its steps apart
exactly when no two siblings hold steps with a common id (`Compiler.tells_apart_iff`).
-/

namespace WorkflowCompiler

open Relation (TransGen ReflTransGen)

/-! ## Positions -/

/-- Where a step stands in a tree. -/
inductive Position where
  /-- among the outermost steps -/
  | here (n : Nat)
  /-- inside of one of them, among the inline steps of an outcome -/
  | inside (n : Nat) (o : Outcome) (p : Position)

/-- The inline steps of an outcome of a compiled step. -/
def CompiledStep.inlineSteps (c : CompiledStep) (o : Outcome) : List CompiledStep :=
  match c.config with
  | .branch config => (config.target? o).elim [] CompiledTarget.steps
  | _ => []

namespace Position

/-- The step at a position. -/
def step? : Position → List CompiledStep → Option CompiledStep
  | here n, out => out[n]?
  | inside n o p, out => out[n]?.bind fun c => p.step? (c.inlineSteps o)

/-- The place of the outermost step at a position or around it. -/
def root : Position → Nat
  | here n => n
  | inside n _ _ => n

/-- Two positions are under different outcomes of one and the same branch. -/
inductive Apart : Position → Position → Prop where
  | outcomes (n : Nat) {o o' : Outcome} (p q : Position) (h : o ≠ o') :
    Apart (inside n o p) (inside n o' q)
  | inside (n : Nat) (o : Outcome) {p q : Position} (h : Apart p q) :
    Apart (inside n o p) (inside n o q)

theorem Apart.root_eq {p q : Position} (h : p.Apart q) : p.root = q.root := by
  cases h <;> rfl

/-- The branch that two positions have in common does not matter for how they are apart. -/
theorem eq_or_apart_of_inside {n : Nat} {o : Outcome} {p q : Position}
    (h : inside n o p = inside n o q ∨ (inside n o p).Apart (inside n o q)) : p = q ∨ p.Apart q := by
  rcases h with h | h
  · cases h
    exact .inl rfl
  · cases h with
    | outcomes _ _ _ h => exact absurd rfl h
    | inside _ _ h => exact .inr h

end Position

/-- Steps of a tree have the same id only if they stand at the same position or under different
outcomes of one and the same branch. -/
def TellsApart (out : List CompiledStep) : Prop :=
  ∀ (p q : Position) (x y : CompiledStep), p.step? out = some x → q.step? out = some y →
    x.id = y.id → p = q ∨ p.Apart q

theorem CompiledStep.child_iff {c child : CompiledStep} :
    c.Child child ↔ ∃ o, child ∈ c.inlineSteps o := by
  constructor
  · rintro ⟨config, o, ct, hc, hct, hmem⟩
    refine ⟨o, ?_⟩
    rw [inlineSteps, hc]
    simp only [hct]
    exact hmem
  · rintro ⟨o, hmem⟩
    rw [inlineSteps] at hmem
    split at hmem
    · rename_i config hc
      rcases hct : config.target? o with _ | ct
      · rw [hct] at hmem
        cases hmem
      · rw [hct] at hmem
        exact ⟨config, o, ct, hc, hct, hmem⟩
    · cases hmem

/-- The steps of a tree are those at its positions. -/
theorem inTree_iff_exists_position {out : List CompiledStep} {c : CompiledStep} :
    InTree out c ↔ ∃ p : Position, p.step? out = some c := by
  constructor
  · rintro ⟨root, hroot, hway⟩
    induction hway using ReflTransGen.head_induction_on generalizing out with
    | refl =>
      obtain ⟨n, hn⟩ := List.mem_iff_getElem?.1 hroot
      exact ⟨.here n, hn⟩
    | head hchild _ ih =>
      obtain ⟨o, hmem⟩ := CompiledStep.child_iff.1 hchild
      obtain ⟨n, hn⟩ := List.mem_iff_getElem?.1 hroot
      obtain ⟨p, hp⟩ := ih hmem
      exact ⟨.inside n o p, by rw [Position.step?, hn]; exact hp⟩
  · rintro ⟨p, hp⟩
    induction p generalizing out with
    | here n => exact ⟨c, List.mem_of_getElem? hp, .refl⟩
    | inside n o p ih =>
      obtain ⟨r, hr, hp⟩ := Option.bind_eq_some_iff.1 hp
      obtain ⟨child, hchild, hway⟩ := ih hp
      exact ⟨r, List.mem_of_getElem? hr, .head (CompiledStep.child_iff.2 ⟨o, hchild⟩) hway⟩

/-! ## Steps inside of steps -/

namespace Sibling

/-- One step of a workflow is an inline step of another one, a branch. -/
def Child (p q : Sibling) : Prop :=
  p.step.IsBranch ∧ ∃ o t, p.step.target? o = some t ∧ q.batch = p.batch.inside p.step t ∧
    q.step ∈ t.inline

/-- One step is another one or stands inside of it, at any depth. -/
def Encloses (p q : Sibling) : Prop := ReflTransGen Child p q

variable {p q : Sibling}

theorem Child.id_eq (h : p.Child q) : q.id = p.id ++ "." ++ q.step.id := by
  obtain ⟨b, s⟩ := q
  obtain ⟨-, o, t, -, rfl, -⟩ := h
  rfl

/-- What stands inside of a step has its id, with a point and a text behind it. -/
theorem id_eq_of_transGen (h : TransGen Child p q) :
    p.step.IsBranch ∧ ∃ rest, q.id = p.id ++ "." ++ rest := by
  induction h with
  | @single q hchild => exact ⟨hchild.1, q.step.id, hchild.id_eq⟩
  | @tail q r _ hchild ih =>
    obtain ⟨hbranch, rest, hrest⟩ := ih
    refine ⟨hbranch, rest ++ "." ++ r.step.id, ?_⟩
    rw [hchild.id_eq, hrest]
    simp only [String.append_assoc]

theorem Encloses.id_eq (h : p.Encloses q) :
    q.id = p.id ∨ p.step.IsBranch ∧ ∃ rest, q.id = p.id ++ "." ++ rest := by
  rcases Relation.reflTransGen_iff_eq_or_transGen.1 h with rfl | hway
  · exact .inl rfl
  · exact .inr (id_eq_of_transGen hway)

end Sibling

namespace Batch

/-- Two siblings with different ids hold no steps with a common id. -/
def Separates (b : Batch) : Prop :=
  ∀ s ∈ b.steps, ∀ r ∈ b.steps, s.id ≠ r.id → ∀ p q, (Sibling.mk b s).Encloses p →
    (Sibling.mk b r).Encloses q → p.id ≠ q.id

/-- The id of a sibling is that of a branch beside it, with a point and a text behind it. -/
def Continues (b : Batch) : Prop :=
  ∃ s ∈ b.steps, s.IsBranch ∧ ∃ r ∈ b.steps, ∃ rest, r.id = s.id ++ "." ++ rest

theorem fullId_append (parent : Option String) (id rest : String) :
    WorkflowCompiler.fullId parent id ++ "." ++ rest =
      WorkflowCompiler.fullId parent (id ++ "." ++ rest) := by
  cases parent with
  | none => rfl
  | some parent => simp only [WorkflowCompiler.fullId, String.append_assoc]

/-- If two texts become the same by a point and a text behind them, then one of them is the other
one with a point and a text behind it. -/
theorem exists_append_of_append_eq {a b x y : String} (h : a ++ "." ++ x = b ++ "." ++ y)
    (hne : a ≠ b) : (∃ z, b = a ++ "." ++ z) ∨ ∃ z, a = b ++ "." ++ z := by
  have hlonger : ∀ {a b x y : List Char} {between : List Char}, b = a ++ between →
      '.' :: x = between ++ '.' :: y → a ≠ b → ∃ z, b = a ++ '.' :: z := by
    rintro a b x y (_ | ⟨c, between⟩) rfl hrest hne
    · exact absurd (List.append_nil a).symm hne
    · cases hrest
      exact ⟨between, rfl⟩
  have htext : ∀ {a b : String}, (∃ z, b.toList = a.toList ++ '.' :: z) →
      ∃ z, b = a ++ "." ++ z := by
    rintro a b ⟨z, hz⟩
    refine ⟨String.ofList z, String.toList_inj.1 ?_⟩
    have hof : (String.ofList z).toList = z := String.toList_ofList
    rw [hz, String.toList_append, String.toList_append, hof, List.append_assoc]
    rfl
  have hlists := congrArg String.toList h
  simp only [String.toList_append, List.append_assoc] at hlists
  have hdiffer : a.toList ≠ b.toList := fun h => hne (String.toList_inj.1 h)
  rcases List.append_eq_append_iff.1 hlists with ⟨between, hb, hrest⟩ | ⟨between, ha, hrest⟩
  · exact .inl (htext (hlonger hb hrest hdiffer))
  · exact .inr (htext (hlonger ha hrest hdiffer.symm))

/-- Siblings hold steps with a common id only if one of them continues the id of a branch. -/
theorem separates_of_not_continues {b : Batch} (h : ¬ b.Continues) : b.Separates := by
  intro s hs r hr hne p q hp hq hid
  have hcontinued : ∀ {s r : Step} {rest : String}, s ∈ b.steps → s.IsBranch → r ∈ b.steps →
      r.id ≠ s.id ++ "." ++ rest :=
    fun hs hbranch hr heq => h ⟨_, hs, hbranch, _, hr, _, heq⟩
  have hinjective := fullId_injective b.parent
  rcases hp.id_eq with hp | ⟨hsBranch, rest, hp⟩ <;> rcases hq.id_eq with hq | ⟨hrBranch, rest', hq⟩
    <;> rw [hp, hq] at hid
  · exact hne (hinjective hid)
  · exact hcontinued hr hrBranch hs (hinjective (hid.trans (fullId_append b.parent r.id rest')))
  · exact hcontinued hs hsBranch hr
      (hinjective (hid.symm.trans (fullId_append b.parent s.id rest)))
  · have hboth := hinjective ((fullId_append b.parent s.id rest).symm.trans
      (hid.trans (fullId_append b.parent r.id rest')))
    rcases exists_append_of_append_eq hboth hne with ⟨z, hz⟩ | ⟨z, hz⟩
    · exact hcontinued hs hsBranch hr hz
    · exact hcontinued hr hrBranch hs hz

end Batch

/-- The siblings of every batch that is compiled hold no steps with a common id. -/
def Workflow.Separates (w : Workflow) : Prop := ∀ b, w.ReachedBatch b → b.Separates

/-! ## Compiled siblings -/

section Compiled

variable {settings : RunSettings} {w : Workflow} {b : Batch} {out : List CompiledStep}

theorem CompiledFrom.exists_inlineSteps {s : Step} {needs : List String} {c : CompiledStep}
    (h : CompiledFrom settings (b.fullId s) needs s c) {o : Outcome} (hne : c.inlineSteps o ≠ []) :
    s.IsBranch ∧ ∃ t, s.target? o = some t ∧ t.inline ≠ [] ∧
      CompiledBatch settings (b.inside s t) (c.inlineSteps o) := by
  rw [CompiledStep.inlineSteps] at hne ⊢
  split at hne
  · rename_i config hc
    rcases hct : config.target? o with _ | ct
    · rw [hct] at hne
      exact absurd rfl hne
    · rw [hct] at hne
      exact h.exists_batch hc hct hne
  · exact absurd rfl hne

theorem CompiledFrom.inlineSteps {s : Step} {needs : List String} {c : CompiledStep}
    (h : CompiledFrom settings (b.fullId s) needs s c) (hbranch : s.IsBranch) {o : Outcome}
    {t : Target Step} (ht : s.target? o = some t) (hinline : t.inline ≠ []) :
    CompiledBatch settings (b.inside s t) (c.inlineSteps o) := by
  obtain ⟨config, ct, hc, hct, hbatch⟩ := h.exists_target hbranch ht hinline
  rw [CompiledStep.inlineSteps, hc]
  simp only [hct]
  exact hbatch

/-- There is no step at any position of an empty tree. -/
theorem Position.ne_nil_of_step? {p : Position} {x : CompiledStep} (h : p.step? out = some x) :
    out ≠ [] := by
  rintro rfl
  cases p <;> cases h

/-- A compiled step comes from a step inside of the sibling that is its root. -/
theorem CompiledBatch.exists_encloses (hout : CompiledBatch settings b out) {p : Position}
    {x : CompiledStep} (hx : p.step? out = some x) :
    ∃ c, out[p.root]? = some c ∧ ∃ s ∈ b.steps, c.id = b.fullId s ∧
      ∃ q, (Sibling.mk b s).Encloses q ∧ q.id = x.id := by
  induction p generalizing b out with
  | here n =>
    obtain ⟨s, hs, hfrom⟩ := hout.from_step x (List.mem_of_getElem? hx)
    exact ⟨x, hx, s, hs, hfrom.id_eq, ⟨b, s⟩, .refl, hfrom.id_eq.symm⟩
  | inside n o p ih =>
    obtain ⟨c, hc, hx⟩ := Option.bind_eq_some_iff.1 hx
    obtain ⟨s, hs, hfrom⟩ := hout.from_step c (List.mem_of_getElem? hc)
    obtain ⟨hbranch, t, ht, -, hbatch⟩ :=
      hfrom.exists_inlineSteps (Position.ne_nil_of_step? hx)
    obtain ⟨-, -, i, hi, -, q, hencloses, hq⟩ := ih hbatch hx
    exact ⟨c, hc, s, hs, hfrom.id_eq, q, .head ⟨hbranch, o, t, ht, rfl, hi⟩ hencloses, hq⟩

/-- Inside of a compiled step the ids are longer. -/
theorem CompiledBatch.id_ne_of_inside (hout : CompiledBatch settings b out) {n : Nat}
    {o : Outcome} {p : Position} {c x : CompiledStep} (hc : out[n]? = some c)
    (hx : (Position.inside n o p).step? out = some x) : x.id ≠ c.id := by
  rw [Position.step?, hc] at hx
  obtain ⟨s, hs, hfrom⟩ := hout.from_step c (List.mem_of_getElem? hc)
  obtain ⟨hbranch, t, ht, -, hbatch⟩ := hfrom.exists_inlineSteps (Position.ne_nil_of_step? hx)
  obtain ⟨-, -, i, hi, -, q, hencloses, hq⟩ := hbatch.exists_encloses hx
  have hway : TransGen Sibling.Child ⟨b, s⟩ q := .head' ⟨hbranch, o, t, ht, rfl, hi⟩ hencloses
  obtain ⟨-, rest, hrest⟩ := Sibling.id_eq_of_transGen hway
  rw [← hq, hrest, hfrom.id_eq]
  exact fullId_ne_parent (b.fullId s) rest

/-- Compiled steps with a common id have their root in common, if siblings hold no such steps. -/
theorem CompiledBatch.root_eq (hout : CompiledBatch settings b out) (hseparates : b.Separates)
    {p q : Position} {x y : CompiledStep} (hx : p.step? out = some x) (hy : q.step? out = some y)
    (hid : x.id = y.id) : p.root = q.root := by
  obtain ⟨c, hc, s, hs, hcs, u, hu, hux⟩ := hout.exists_encloses hx
  obtain ⟨c', hc', r, hr, hcr, v, hv, hvy⟩ := hout.exists_encloses hy
  have hsame : s.id = r.id := by
    by_contra hne
    exact hseparates s hs r hr hne u v hu hv (hux.trans (hid.trans hvy.symm))
  have hids : (out.map (·.id))[p.root]? = (out.map (·.id))[q.root]? := by
    rw [List.getElem?_map, List.getElem?_map, hc, hc', Option.map_some, Option.map_some, hcs, hcr,
      Batch.fullId, Batch.fullId, hsame]
  have hlt : p.root < (out.map (·.id)).length := by
    rw [List.length_map]
    exact (List.getElem?_eq_some_iff.1 hc).1
  exact (List.getElem?_inj hlt hout.ids_nodup).1 hids

/-- If siblings hold no steps with a common id, at any depth, then ids tell steps apart. -/
theorem CompiledBatch.tellsApart (hout : CompiledBatch settings b out)
    (h : ∀ inner, ReflTransGen Batch.UnderBranch b inner → inner.Separates) : TellsApart out := by
  intro p
  induction p generalizing b out with
  | here n =>
    intro q x y hx hy hid
    have hroot := hout.root_eq (h b .refl) hx hy hid
    cases q with
    | here m =>
      cases hroot
      exact .inl rfl
    | inside m o q =>
      cases hroot
      exact absurd hid.symm (hout.id_ne_of_inside hx hy)
  | inside n o p ih =>
    intro q x y hx hy hid
    have hroot := hout.root_eq (h b .refl) hx hy hid
    cases q with
    | here m =>
      cases hroot
      exact absurd hid (hout.id_ne_of_inside hy hx)
    | inside m o' q =>
      cases hroot
      by_cases ho : o = o'
      · -- the steps stand in the same compiled batch
        subst ho
        obtain ⟨c, hc, hx⟩ := Option.bind_eq_some_iff.1 hx
        obtain ⟨c', hc', hy⟩ := Option.bind_eq_some_iff.1 hy
        rw [hc, Option.some.injEq] at hc'
        subst hc'
        obtain ⟨s, hs, hfrom⟩ := hout.from_step c (List.mem_of_getElem? hc)
        obtain ⟨hbranch, t, ht, hinline, hbatch⟩ :=
          hfrom.exists_inlineSteps (Position.ne_nil_of_step? hx)
        have hunder : b.UnderBranch (b.inside s t) := ⟨s, hs, hbranch, o, t, ht, hinline, rfl⟩
        rcases ih hbatch (fun inner hway => h inner (hway.head hunder)) q x y hx hy hid with
          rfl | hapart
        · exact .inl rfl
        · exact .inr (.inside n o hapart)
      · exact .inr (.outcomes n p q ho)

/-- If the ids of a tree tell steps apart, so do those of the inline steps in it. -/
theorem TellsApart.inlineSteps (h : TellsApart out) {c : CompiledStep} (hc : c ∈ out)
    (o : Outcome) : TellsApart (c.inlineSteps o) := by
  intro p q x y hx hy hid
  obtain ⟨n, hn⟩ := List.mem_iff_getElem?.1 hc
  refine Position.eq_or_apart_of_inside (h (.inside n o p) (.inside n o q) x y ?_ ?_ hid)
  · rw [Position.step?, hn]
    exact hx
  · rw [Position.step?, hn]
    exact hy

/-- Then those of every batch that is reached do. -/
theorem CompiledBatch.exists_tellsApart (hout : CompiledBatch settings w.topBatch out)
    (h : TellsApart out) (hreached : w.ReachedBatch b) :
    ∃ inner, CompiledBatch settings b inner ∧ TellsApart inner := by
  induction hreached with
  | refl => exact ⟨out, hout, h⟩
  | tail _ hunder ih =>
    obtain ⟨compiled, hcompiled, hapart⟩ := ih
    obtain ⟨s, hs, hbranch, o, t, ht, hinline, rfl⟩ := hunder
    obtain ⟨c, hc, hfrom⟩ := hcompiled.exists_compiled hs
    exact ⟨c.inlineSteps o, hfrom.inlineSteps hbranch ht hinline, hapart.inlineSteps hc o⟩

/-- What stands inside of a sibling is compiled inside of the compiled sibling. -/
theorem CompiledFrom.exists_position {p q : Sibling} {c : CompiledStep} {n : Nat}
    (h : CompiledFrom settings p.id p.needs p.step c) (hn : out[n]? = some c)
    (hencloses : p.Encloses q) :
    ∃ (r : Position) (x : CompiledStep), r.root = n ∧ r.step? out = some x ∧ x.id = q.id := by
  induction hencloses using ReflTransGen.head_induction_on generalizing c n out with
  | refl => exact ⟨.here n, c, rfl, hn, h.id_eq⟩
  | @head p inner hchild _ ih =>
    obtain ⟨b, i⟩ := inner
    obtain ⟨hbranch, o, t, ht, rfl, hi⟩ := hchild
    obtain ⟨child, hmem, hfrom⟩ :=
      (h.inlineSteps hbranch ht (List.ne_nil_of_mem hi)).exists_compiled hi
    obtain ⟨m, hm⟩ := List.mem_iff_getElem?.1 hmem
    obtain ⟨r, x, -, hx, hid⟩ := ih hfrom hm
    refine ⟨.inside n o r, x, rfl, ?_, hid⟩
    rw [Position.step?, hn]
    exact hx

/-- If ids tell steps apart, then siblings hold no steps with a common id. -/
theorem CompiledBatch.separates (hout : CompiledBatch settings b out) (h : TellsApart out) :
    b.Separates := by
  intro s hs r hr hne p q hp hq hid
  obtain ⟨c, hc, hfrom⟩ := hout.exists_compiled hs
  obtain ⟨c', hc', hfrom'⟩ := hout.exists_compiled hr
  obtain ⟨n, hn⟩ := List.mem_iff_getElem?.1 hc
  obtain ⟨m, hm⟩ := List.mem_iff_getElem?.1 hc'
  obtain ⟨u, x, hu, hx, hxp⟩ := CompiledFrom.exists_position hfrom hn hp
  obtain ⟨v, y, hv, hy, hyq⟩ := CompiledFrom.exists_position hfrom' hm hq
  have hroots : u.root = v.root := by
    rcases h u v x y hx hy (hxp.trans (hid.trans hyq.symm)) with rfl | hapart
    · rfl
    · exact hapart.root_eq
  -- both stand inside of one compiled step, and so inside of one sibling
  rw [hu, hv] at hroots
  subst hroots
  rw [hn, Option.some.injEq] at hm
  subst hm
  exact hne (fullId_injective b.parent (hfrom.id_eq.symm.trans hfrom'.id_eq))

end Compiled

/-- The ids of compiled steps tell apart all steps but those under different outcomes of one and
the same branch exactly when siblings hold no steps with a common id. They do if no sibling of a
branch has the id of the branch, with a point and a text behind it. -/
theorem Compiler.tells_apart_iff {c : Compiler} {d : Disk} {w : Workflow} {inputs : Fields String}
    {out : List CompiledStep} (h : (c.compile d w inputs).1 = .ok out) :
    (TellsApart out ↔ w.Separates) ∧
      ((∀ b, w.ReachedBatch b → ¬ b.Continues) → TellsApart out) := by
  have hout := (CompiledBatch.of_workflow_yields (yields_of_compile h)).2
  refine ⟨⟨fun hapart b hreached => ?_, fun hseparates => hout.tellsApart hseparates⟩,
    fun hnone => hout.tellsApart fun b hreached => ?_⟩
  · obtain ⟨inner, hinner, hinnerApart⟩ := hout.exists_tellsApart hapart hreached
    exact hinner.separates hinnerApart
  · exact Batch.separates_of_not_continues (hnone b hreached)

/-- In a workflow whose ids hold no points, every step has its own id. -/
theorem reportWorkflow_tellsApart :
    ∃ out, ((Compiler.mk { workflowId := "run" } {}).compile {} (reportWorkflow "prep") []).1 =
      .ok out ∧ TellsApart out := by
  obtain ⟨out, hout⟩ := exists_compile_reportWorkflow "prep" (by decide +kernel)
  refine ⟨out, hout, (Compiler.tells_apart_iff hout).2 ?_⟩
  rintro b hreached ⟨s, -, -, r, hr, rest, hid⟩
  have hpoint : '.' ∈ r.id.toList := by
    rw [hid, String.toList_append, String.toList_append]
    exact List.mem_append_left _ (List.mem_append_right _ List.mem_cons_self)
  rcases eq_of_reachedBatch hreached with rfl | rfl
  · rw [List.mem_singleton.1 hr] at hpoint
    exact absurd hpoint (by decide)
  · simp only [reportBatch, reportSteps, List.mem_cons, List.not_mem_nil, or_false] at hr
    rcases hr with rfl | rfl
    · exact absurd hpoint (by decide)
    · exact absurd hpoint (by decide)

/-- A branch with an inline step, and beside it a step with the id under which that is compiled. -/
def pointedWorkflow : Workflow :=
  { name := "release"
    steps :=
      [{ id := "check", executor := some "branch", condition := some "make test",
         onTrue := some
           { inline :=
               [{ id := "ship", executor := some "shell", command := some "make ship" }] } },
        { id := "check.ship", executor := some "shell", command := some "make a" }] }

/-- What it compiles to, if it does. -/
def pointedSteps : Option (List CompiledStep) :=
  ((Compiler.mk { workflowId := "run" } {}).compile {} pointedWorkflow []).1.toOption

/-- It compiles, and the two steps have the same id. -/
theorem pointedWorkflow_not_tellsApart :
    ∃ out, ((Compiler.mk { workflowId := "run" } {}).compile {} pointedWorkflow []).1 = .ok out ∧
      ¬ TellsApart out := by
  have hinline : (pointedSteps.bind (Position.inside 0 .onTrue (.here 0)).step?).map (·.id) =
      some "check.ship" := by
    decide +kernel
  have hbeside : (pointedSteps.bind (Position.here 1).step?).map (·.id) = some "check.ship" := by
    decide +kernel
  obtain ⟨x, hx, hxid⟩ := Option.map_eq_some_iff.1 hinline
  obtain ⟨y, hy, hyid⟩ := Option.map_eq_some_iff.1 hbeside
  obtain ⟨out, hout, hx⟩ := Option.bind_eq_some_iff.1 hx
  rw [hout, Option.bind_some] at hy
  refine ⟨out, Attempt.eq_ok_of_toOption_eq_some hout, fun hapart => ?_⟩
  rcases hapart _ _ x y hx hy (hxid.trans hyid.symm) with heq | hapart
  · cases heq
  · cases hapart

end WorkflowCompiler
