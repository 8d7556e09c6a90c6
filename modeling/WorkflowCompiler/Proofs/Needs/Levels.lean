import WorkflowCompiler.Proofs.Needs.Queue

/-!
# Levels of steps

Steps that need nothing have level zero, and any other step stands one level above the highest of
its needs. An order goes through the levels one after the other: a step is placed behind the last of
its needs, and what it needs last has the level below. Within a level the places are those of the
last needs, so the order of one level is settled by the one below, and there is one such order only.

* `level` — the levels, and what they are (`isLevel_level`);
* `ByLevel` — the rules by which a list of the steps goes through the levels;
* `byLevel_of_order` — an order keeps the rules;
* `ByLevel.unique` — the rules leave one list;
* `order_eq_ok_iff_byLevel` — both, for what is declared.
-/

namespace WorkflowCompiler

namespace NeedsGraph

variable {g : NeedsGraph} {ids : List String}

/-- The level of a step, as far as chains of so many needs tell. -/
def levelWithin (g : NeedsGraph) : Nat → String → Nat
  | 0 => fun _ => 0
  | n + 1 => g.above (g.levelWithin n)

/-- The level of a step. No chain of needs is longer than there are steps, if there are no
circles. -/
def level (g : NeedsGraph) (a : String) : Nat := g.levelWithin g.ids.length a

/-- What levels are: a step that needs nothing has level zero, and any other one has one more than
its need of the greatest level. -/
structure IsLevel (g : NeedsGraph) (level : String → Nat) : Prop where
  /-- steps without needs have level zero -/
  of_needs_nothing : ∀ a, g.needsOf a = [] → level a = 0
  /-- the other steps have one more than the greatest level of their needs -/
  of_greatest : ∀ a b, g.Needs a b → (∀ c, g.Needs a c → level c ≤ level b) →
    level a = level b + 1

/-- The last of the needs of a step in a list. -/
structure LastNeed (g : NeedsGraph) (l : List String) (a b : String) : Prop where
  /-- it is a need of the step -/
  needs : g.Needs a b
  /-- no need of the step stands behind it -/
  last : ∀ c, g.Needs a c → l.idxOf c ≤ l.idxOf b

/-- A list of the steps that goes through the levels one after the other, each in the order of the
last needs. -/
structure ByLevel (g : NeedsGraph) (l : List String) : Prop where
  /-- every step is listed once -/
  perm : l.Perm g.ids
  /-- the levels increase -/
  increasing : l.Pairwise fun a b => g.level a ≤ g.level b
  /-- steps of level zero stand in the order of their declaration -/
  roots : ∀ a ∈ g.ids, ∀ b ∈ g.ids, g.level a = 0 → g.level b = 0 →
    (l.idxOf a < l.idxOf b ↔ g.ids.idxOf a < g.ids.idxOf b)
  /-- other steps of one level stand in the order of their last needs, and where they have the
  same last need in the order of their declaration -/
  lastNeeds : ∀ a b c d, g.LastNeed l a c → g.LastNeed l b d → g.level a = g.level b →
    (l.idxOf a < l.idxOf b ↔
      l.idxOf c < l.idxOf d ∨ c = d ∧ g.ids.idxOf a < g.ids.idxOf b)

/-! ## What levels are -/

theorem mem_ids_of_needs {a b : String} (h : g.Needs a b) : a ∈ g.ids := by
  by_contra ha
  have hnone : g.nodes.lookup a = none := by
    rw [List.lookup_eq_none_iff]
    intro node hnode
    rw [bne_iff_ne]
    rintro rfl
    exact ha (List.mem_map_of_mem hnode)
  rw [Needs, needsOf, hnone] at h
  cases h

/-- Chains of needs that are as long as the place of a step tell its level. -/
theorem levelWithin_succ_of_order (hclosed : g.Closed) (h : g.order = .ok ids) {a : String}
    {n : Nat} (hplace : ids.idxOf a ≤ n) : g.levelWithin n a = g.levelWithin (n + 1) a := by
  have hearlier : ∀ {a b}, g.Needs a b → ids.idxOf b < ids.idxOf a := fun hneeds =>
    idxOf_lt_of_order hclosed h (mem_ids_of_needs hneeds) hneeds
  induction n generalizing a with
  | zero =>
    -- nothing stands before the first place
    refine (Nat.le_zero.1 (above_le_iff.2 fun b hb => ?_)).symm
    exact absurd (hearlier hb) (by omega)
  | succ n ih =>
    refine above_congr fun b hb => ih ?_
    have := hearlier hb
    omega

/-- Where there is an order, the level of a step is above the levels of its needs. -/
theorem level_eq_of_order (hclosed : g.Closed) (h : g.order = .ok ids) (a : String) :
    g.level a = g.above g.level a := by
  refine levelWithin_succ_of_order hclosed h ?_
  rw [← (order_perm hclosed h).length_eq]
  exact List.idxOf_le_length

theorem isLevel_level (hlevel : ∀ a, g.level a = g.above g.level a) : g.IsLevel g.level where
  of_needs_nothing := fun a ha => (hlevel a).trans (above_eq_zero_iff.2 ha)
  of_greatest := fun a _ hb hgreatest => (hlevel a).trans (above_eq_of_greatest hb hgreatest)

theorem level_lt_of_needs (hlevel : ∀ a, g.level a = g.above g.level a) {a b : String}
    (h : g.Needs a b) : g.level b < g.level a := by
  rw [hlevel a]
  exact lt_above h

/-! ## An order goes through the levels -/

/-- Steps of an order are placed in the order of their last needs. -/
theorem idxOf_lt_iff_comesFirst (hclosed : g.Closed) (h : g.order = .ok ids) {a b : String}
    (ha : a ∈ g.ids) (hb : b ∈ g.ids) : ids.idxOf a < ids.idxOf b ↔ g.ComesFirst ids a b := by
  have hperm := order_perm hclosed h
  exact idxOf_lt_iff_of_pairwise (pairwise_comesFirst_of_order hclosed h) ComesFirst.asymm
    (hperm.mem_iff.2 ha) (hperm.mem_iff.2 hb)

/-- Along an order the levels do not decrease. The induction is on the place of the later step: the
needs of both steps stand before it. -/
theorem level_le_of_order (hclosed : g.Closed) (h : g.order = .ok ids) {a b : String}
    (ha : a ∈ g.ids) (hb : b ∈ g.ids) (hle : ids.idxOf a ≤ ids.idxOf b) :
    g.level a ≤ g.level b := by
  have hperm := order_perm hclosed h
  have hlevel := level_eq_of_order hclosed h
  induction hplace : ids.idxOf b using Nat.strong_induction_on generalizing a b with
  | _ place ih =>
    subst hplace
    rcases Nat.eq_or_lt_of_le hle with heq | hlt
    · rw [(List.idxOf_inj (hperm.mem_iff.2 ha)).1 heq]
    · have habove : g.above ids.idxOf a ≤ g.above ids.idxOf b := by
        rcases (idxOf_lt_iff_comesFirst hclosed h ha hb).1 hlt with hfirst | ⟨hsame, -⟩
        · exact Nat.le_of_lt hfirst
        · exact Nat.le_of_eq hsame
      rw [hlevel a, above_le_iff]
      intro c hc
      have hcplace : ids.idxOf c < g.above ids.idxOf a := lt_above (f := ids.idxOf) hc
      obtain ⟨d, hd, hlast⟩ := exists_above (g := g) (f := ids.idxOf) (a := b) (by omega)
      have hdplace := idxOf_lt_of_order hclosed h hb hd
      have hcd : g.level c ≤ g.level d :=
        ih (ids.idxOf d) hdplace (hclosed.mem_ids hc) (hclosed.mem_ids hd) (by omega) rfl
      exact Nat.lt_of_le_of_lt hcd (level_lt_of_needs hlevel hd)

theorem LastNeed.above_eq {l : List String} {a b : String} (h : g.LastNeed l a b) :
    g.above l.idxOf a = l.idxOf b + 1 :=
  above_eq_of_greatest h.needs h.last

/-- An order goes through the levels one after the other. -/
theorem byLevel_of_order (hclosed : g.Closed) (h : g.order = .ok ids) : g.ByLevel ids := by
  have hperm := order_perm hclosed h
  have hlevel := level_eq_of_order hclosed h
  refine ⟨hperm, ?_, fun a ha b hb hzero hzero' => ?_, fun a b c d hc hd _ => ?_⟩
  · have hplaces := pairwise_idxOf_lt (hperm.nodup_iff.2 hclosed.nodup)
    exact hplaces.imp_of_mem fun ha hb hlt => level_le_of_order hclosed h (hperm.mem_iff.1 ha)
      (hperm.mem_iff.1 hb) (Nat.le_of_lt hlt)
  · -- neither step needs anything, so only the declaration is left
    have hnone : ∀ {a}, g.level a = 0 → g.above ids.idxOf a = 0 := fun {a} hzero =>
      above_eq_zero_iff.2 (above_eq_zero_iff.1 ((hlevel a).symm.trans hzero))
    rw [idxOf_lt_iff_comesFirst hclosed h ha hb, ComesFirst, hnone hzero, hnone hzero']
    simp
  · have ha := mem_ids_of_needs hc.needs
    have hb := mem_ids_of_needs hd.needs
    have hmem : c ∈ ids := hperm.mem_iff.2 (hclosed.mem_ids hc.needs)
    rw [idxOf_lt_iff_comesFirst hclosed h ha hb, ComesFirst, hc.above_eq, hd.above_eq,
      Nat.succ_lt_succ_iff, Nat.succ_inj, List.idxOf_inj hmem]

/-! ## There is one such order -/

/-- A step that needs something has a last need in any list. -/
theorem exists_lastNeed (l : List String) {a : String} (h : g.needsOf a ≠ []) :
    ∃ b, g.LastNeed l a b := by
  obtain ⟨b, hb, hlast⟩ := exists_above (f := l.idxOf) (mt above_eq_zero_iff.1 h)
  refine ⟨b, hb, fun c hc => ?_⟩
  have hlt : l.idxOf c < g.above l.idxOf a := lt_above (f := l.idxOf) hc
  omega

/-- A step of a lower level stands first. -/
theorem ByLevel.idxOf_lt_of_level_lt {l : List String} (h : g.ByLevel l) {a b : String}
    (ha : a ∈ g.ids) (hb : b ∈ g.ids) (hlt : g.level a < g.level b) : l.idxOf a < l.idxOf b := by
  have hmem : ∀ {a}, a ∈ g.ids → a ∈ l := fun ha => h.perm.mem_iff.2 ha
  by_contra hnot
  rcases Nat.lt_or_eq_of_le (Nat.not_lt.1 hnot) with hbefore | heq
  · exact Nat.not_lt.2 (rel_of_idxOf_lt h.increasing (hmem hb) (hmem ha) hbefore) hlt
  · rw [(List.idxOf_inj (hmem hb)).1 heq] at hlt
    exact Nat.lt_irrefl _ hlt

/-- Two lists that go through the levels place any two steps the same way. The induction is on the
level of the first step: the needs of a step have smaller levels, so their places are settled. -/
theorem ByLevel.idxOf_lt_iff {l l' : List String} (hclosed : g.Closed)
    (hlevel : ∀ a, g.level a = g.above g.level a) (h : g.ByLevel l) (h' : g.ByLevel l')
    {a b : String} (ha : a ∈ g.ids) (hb : b ∈ g.ids) :
    l.idxOf a < l.idxOf b ↔ l'.idxOf a < l'.idxOf b := by
  induction hn : g.level a using Nat.strong_induction_on generalizing a b with
  | _ n ih =>
    subst hn
    rcases Nat.lt_trichotomy (g.level a) (g.level b) with hlt | heq | hgt
    · exact iff_of_true (h.idxOf_lt_of_level_lt ha hb hlt) (h'.idxOf_lt_of_level_lt ha hb hlt)
    · by_cases hzero : g.level a = 0
      · rw [h.roots a ha b hb hzero (heq ▸ hzero), h'.roots a ha b hb hzero (heq ▸ hzero)]
      · have hneeds : ∀ {a}, g.level a ≠ 0 → g.needsOf a ≠ [] := fun {a} hne hnil =>
          hne ((hlevel a).trans (above_eq_zero_iff.2 hnil))
        -- the last needs are the same in both lists
        have hsame : ∀ {x c}, g.level x = g.level a → g.LastNeed l x c → g.LastNeed l' x c := by
          refine fun {x c} hx hc => ⟨hc.needs, fun d hd => Nat.not_lt.1 fun hlt => ?_⟩
          have hc' := ih (g.level c) (hx ▸ level_lt_of_needs hlevel hc.needs)
            (hclosed.mem_ids hc.needs) (hclosed.mem_ids hd) rfl
          exact Nat.not_lt.2 (hc.last d hd) (hc'.2 hlt)
        obtain ⟨c, hc⟩ := exists_lastNeed l (hneeds hzero)
        obtain ⟨d, hd⟩ := exists_lastNeed l (hneeds (heq ▸ hzero))
        rw [h.lastNeeds a b c d hc hd heq,
          h'.lastNeeds a b c d (hsame rfl hc) (hsame heq.symm hd) heq,
          ih (g.level c) (level_lt_of_needs hlevel hc.needs) (hclosed.mem_ids hc.needs)
            (hclosed.mem_ids hd.needs) rfl]
    · have hlt := h.idxOf_lt_of_level_lt hb ha hgt
      have hlt' := h'.idxOf_lt_of_level_lt hb ha hgt
      omega

/-- There is one list that goes through the levels. -/
theorem ByLevel.unique {l l' : List String} (hclosed : g.Closed)
    (hlevel : ∀ a, g.level a = g.above g.level a) (h : g.ByLevel l) (h' : g.ByLevel l') :
    l = l' := by
  have hnodup := h.perm.nodup_iff.2 hclosed.nodup
  have hsorted : l.Pairwise fun a b => l'.idxOf a < l'.idxOf b :=
    (pairwise_idxOf_lt hnodup).imp_of_mem fun ha hb hlt =>
      (h.idxOf_lt_iff hclosed hlevel h' (h.perm.mem_iff.1 ha) (h.perm.mem_iff.1 hb)).1 hlt
  have hsorted' := pairwise_idxOf_lt (h'.perm.nodup_iff.2 hclosed.nodup)
  refine (h.perm.trans h'.perm.symm).eq_of_pairwise ?_ hsorted hsorted'
  exact fun a b _ _ hab hba => absurd hab (Nat.lt_asymm hba)

/-- Steps without circles have levels and an order, and the order is the one list that goes through
the levels one after the other: first the steps of level zero as they are declared, and then each
level in the order of the last needs. -/
theorem order_eq_ok_iff_byLevel (declared : List (String × List String))
    (h : (ofDeclared declared).Acyclic) :
    (ofDeclared declared).IsLevel (ofDeclared declared).level ∧
      (∃ ids, (ofDeclared declared).order = .ok ids) ∧
        ∀ l, (ofDeclared declared).order = .ok l ↔ (ofDeclared declared).ByLevel l := by
  have hclosed := closed_ofDeclared declared
  obtain ⟨ids, horder⟩ := exists_order_of_acyclic hclosed h
  have hlevel := level_eq_of_order hclosed horder
  refine ⟨isLevel_level hlevel, ⟨ids, horder⟩, fun l => ⟨byLevel_of_order hclosed, fun hl => ?_⟩⟩
  rw [hl.unique hclosed hlevel (byLevel_of_order hclosed horder), horder]

end NeedsGraph

/-- Needs of steps of four levels, with a repeated need and one of a step that there is not. The
checks are declared before the other steps of their level, and need what is placed later. -/
def stagedNeeds : List (String × List String) :=
  [("release", ["test", "docs"]), ("check", ["setup"]), ("docs", ["build", "build"]),
    ("fetch", []), ("test", ["setup", "build"]), ("build", ["fetch"]), ("setup", ["network"])]

/-- The one order that goes through these levels. -/
theorem stagedNeeds_byLevel :
    (NeedsGraph.ofDeclared stagedNeeds).Acyclic ∧
      ["fetch", "setup", "build", "check", "docs", "test", "release"].map
        (NeedsGraph.ofDeclared stagedNeeds).level = [0, 0, 1, 1, 2, 2, 3] ∧
      (NeedsGraph.ofDeclared stagedNeeds).IsLevel (NeedsGraph.ofDeclared stagedNeeds).level ∧
      ∀ l, (NeedsGraph.ofDeclared stagedNeeds).ByLevel l ↔
        l = ["fetch", "setup", "build", "check", "docs", "test", "release"] := by
  have horder : (NeedsGraph.ofDeclared stagedNeeds).order =
      .ok ["fetch", "setup", "build", "check", "docs", "test", "release"] := by decide +kernel
  have hacyclic : (NeedsGraph.ofDeclared stagedNeeds).Acyclic :=
    NeedsGraph.acyclic_of_order (NeedsGraph.closed_ofDeclared _) horder
  obtain ⟨hlevel, -, hiff⟩ := NeedsGraph.order_eq_ok_iff_byLevel stagedNeeds hacyclic
  refine ⟨hacyclic, by decide +kernel, hlevel, fun l => ?_⟩
  rw [← hiff l, horder, Except.ok.injEq]
  exact eq_comm

end WorkflowCompiler
