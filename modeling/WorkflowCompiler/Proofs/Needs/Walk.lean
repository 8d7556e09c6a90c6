import Mathlib.Data.List.Nodup
import WorkflowCompiler.Needs.Cycle
import WorkflowCompiler.Proofs.Needs.Circuits

/-!
# Walks

A walk is judged by what it has *left*: a step is left when the path is taken back behind it.
The invariant `Walk.Sound` says that the steps that were seen are those on the path and those
that were left, that every need a walk has looked at leads to a step that was left before, to
the next step on the path, or closes a cycle that was found, and that what was found are
circuits.

* `Sound.step`, `Sound.run` — a step of a walk keeps the invariant, and so do many;
* `Sound.cost_step_lt` — a walk that is not over comes nearer to its end with each step, so
  `walkLength` steps are enough (`Sound.run_path_eq_nil`, `cost_enter_le`).
-/

namespace WorkflowCompiler.NeedsGraph.Walk

variable {g : NeedsGraph}

/-! ## The invariant -/

/-- One of the cycles ends with the edge from `a` to `b`. -/
def Closes (cycles : List (List String)) (a b : String) : Prop :=
  ∃ path ∈ cycles, [a, b] <:+ path

/-- Steps that were left, the last one first: what one of them needs was left before it, or
the need closes a cycle. -/
def Settled (g : NeedsGraph) (cycles : List (List String)) : List String → Prop
  | [] => True
  | a :: earlier =>
    (∀ b, g.Needs a b → b ∈ earlier ∨ Closes cycles a b) ∧ Settled g cycles earlier

/-- A step on the path, with the step that was entered from it: a need that was looked at was
left, or closes a cycle, or is the step that was entered. -/
def Looked (g : NeedsGraph) (cycles : List (List String)) (left : List String)
    (above : Option String) (frame : String × List String) : Prop :=
  ∃ looked, g.needsOf frame.1 = looked ++ frame.2 ∧ (∀ b ∈ above, b ∈ looked) ∧
    ∀ b ∈ looked, b ∈ left ∨ Closes cycles frame.1 b ∨ b ∈ above

/-- All steps on a path are looked at as far as the path says. -/
def Standing (g : NeedsGraph) (cycles : List (List String)) (left : List String) :
    Option String → List (String × List String) → Prop
  | _, [] => True
  | above, frame :: rest =>
    Looked g cycles left above frame ∧ Standing g cycles left (some frame.1) rest

/-- What holds of a walk that has left these steps, the last one first. -/
structure Sound (g : NeedsGraph) (left : List String) (w : Walk) : Prop where
  /-- no step is twice on the path or left twice, and none on the path was left -/
  nodup : (w.steps ++ left).Nodup
  /-- what was seen is on the path or was left -/
  mem_seen : ∀ a, a ∈ w.seen ↔ a ∈ w.steps ∨ a ∈ left
  /-- what was seen are steps of the graph -/
  mem_ids : ∀ a ∈ w.seen, a ∈ g.ids
  /-- what was left is done with -/
  settled : Settled g w.cycles left
  /-- what is on the path is done with as far as it was looked at -/
  standing : Standing g w.cycles left none w.path
  /-- what was found are circuits -/
  circuits : ∀ path ∈ w.cycles, g.Circuit path

theorem Closes.mono {cycles cycles' : List (List String)} (hsub : cycles ⊆ cycles')
    {a b : String} (h : Closes cycles a b) : Closes cycles' a b := by
  obtain ⟨path, hpath, hend⟩ := h
  exact ⟨path, hsub hpath, hend⟩

theorem Settled.mono {cycles cycles' : List (List String)} (hsub : cycles ⊆ cycles')
    {left : List String} (h : Settled g cycles left) : Settled g cycles' left := by
  induction left with
  | nil => trivial
  | cons a earlier ih =>
    refine ⟨fun b hb => ?_, ih h.2⟩
    exact (h.1 b hb).imp id (Closes.mono hsub)

theorem Looked.mono {cycles cycles' : List (List String)} (hcycles : cycles ⊆ cycles')
    {left left' : List String} (hleft : left ⊆ left') {above : Option String}
    {frame : String × List String} (h : Looked g cycles left above frame) :
    Looked g cycles' left' above frame := by
  obtain ⟨looked, hneeds, habove, hlooked⟩ := h
  refine ⟨looked, hneeds, habove, fun b hb => ?_⟩
  rcases hlooked b hb with hb | hb | hb
  · exact .inl (hleft hb)
  · exact .inr (.inl (hb.mono hcycles))
  · exact .inr (.inr hb)

theorem Standing.mono {cycles cycles' : List (List String)} (hcycles : cycles ⊆ cycles')
    {left left' : List String} (hleft : left ⊆ left') {above : Option String}
    {path : List (String × List String)} (h : Standing g cycles left above path) :
    Standing g cycles' left' above path := by
  induction path generalizing above with
  | nil => trivial
  | cons frame rest ih => exact ⟨h.1.mono hcycles hleft, ih h.2⟩

/-- When the step that was entered is left, it need no longer be told apart. -/
theorem Standing.left {cycles : List (List String)} {left : List String} {a : String}
    {path : List (String × List String)} (h : Standing g cycles left (some a) path) :
    Standing g cycles (a :: left) none path := by
  cases path with
  | nil => trivial
  | cons frame rest =>
    obtain ⟨⟨looked, hneeds, -, hlooked⟩, hrest⟩ := h
    refine ⟨⟨looked, hneeds, by simp, fun b hb => ?_⟩, ?_⟩
    · rcases hlooked b hb with hb | hb | hb
      · exact .inl (List.mem_cons_of_mem _ hb)
      · exact .inr (.inl hb)
      · rw [Option.mem_some_iff] at hb
        exact .inl (hb ▸ List.mem_cons_self)
    · exact hrest.mono (List.Subset.refl _) (List.subset_cons_self _ _)

/-- Each step on the path is needed by the one below it. -/
theorem Standing.chain {cycles : List (List String)} {left : List String}
    {above : Option String} {path : List (String × List String)}
    (h : Standing g cycles left above path) :
    (above.toList ++ path.map Prod.fst).IsChain fun a b => g.Needs b a := by
  induction path generalizing above with
  | nil => cases above <;> simp
  | cons frame rest ih =>
    obtain ⟨⟨looked, hneeds, habove, -⟩, hrest⟩ := h
    have hchain := ih hrest
    cases above with
    | none => exact hchain
    | some a =>
      refine List.isChain_cons_cons.2 ⟨?_, hchain⟩
      rw [Needs, hneeds]
      exact List.mem_append_left _ (habove a rfl)

/-! ## One step of a walk -/

/-- The cycle that a need closes starts with the need, and goes up the path from there. -/
theorem closedBy_append {need : String} {upper : List String} (h : need ∉ upper)
    (lower : List String) :
    closedBy need (upper ++ need :: lower) = need :: upper.reverse ++ [need] := by
  have hupper : ∀ a ∈ upper, decide (a ≠ need) = true := by
    intro a ha
    rw [decide_eq_true_iff]
    rintro rfl
    exact h ha
  rw [closedBy, List.takeWhile_append_of_pos hupper, List.takeWhile_cons_of_neg (by simp),
    List.append_nil]

/-- What the last step on a path closes by needing a step on it is a circuit, and ends with
that need. -/
theorem circuit_closedBy {node need : String} {rest : List String}
    (hchain : (node :: rest).IsChain fun a b => g.Needs b a) (hnodup : (node :: rest).Nodup)
    (hneeds : g.Needs node need) (hmem : need ∈ node :: rest) :
    g.Circuit (closedBy need (node :: rest)) ∧ [node, need] <:+ closedBy need (node :: rest) := by
  obtain ⟨upper, lower, hsplit, hnot⟩ := List.eq_append_cons_of_mem hmem
  have hbody : (need :: upper.reverse) = (upper ++ [need]).reverse := by simp
  have hhead : (upper ++ [need]).head? = some node := by
    cases upper with
    | nil =>
      rw [List.nil_append, List.cons.injEq] at hsplit
      simp [hsplit.1]
    | cons a upper =>
      rw [List.cons_append, List.cons.injEq] at hsplit
      simp [hsplit.1]
  rw [hsplit] at hchain hnodup ⊢
  rw [List.append_cons] at hchain hnodup
  rw [closedBy_append hnot]
  refine ⟨⟨?_, ⟨need, upper.reverse, rfl⟩, ?_⟩, ?_⟩
  · -- the path upwards from the need, and the need once more
    have hup : (need :: upper.reverse).IsChain g.Needs := by
      rw [hbody, List.isChain_reverse]
      exact hchain.left_of_append
    refine hup.append (List.isChain_singleton need) fun a ha b hb => ?_
    rw [hbody, List.getLast?_reverse, hhead, Option.mem_some_iff] at ha
    rw [List.head?_singleton, Option.mem_some_iff] at hb
    rw [← ha, ← hb]
    exact hneeds
  · rw [List.dropLast_concat, hbody, List.nodup_reverse]
    exact (List.nodup_append.1 hnodup).1
  · -- the last edge leads from the end of the path back to the need
    obtain ⟨more, hmore⟩ := List.head?_eq_some_iff.1 hhead
    refine ⟨more.reverse, ?_⟩
    rw [hbody, hmore]
    simp

variable {w : Walk} {left : List String} {node need : String} {more : List String}
  {rest : List (String × List String)}

/-- A step that needs nothing more is left. -/
theorem Sound.leave (h : Sound g left w) (hpath : w.path = (node, []) :: rest) :
    Sound g (node :: left) { w with path := rest } := by
  have hsteps : w.steps = node :: rest.map Prod.fst := by rw [steps, hpath]; rfl
  obtain ⟨hnodup, hseen, hids, hsettled, hstanding, hcircuits⟩ := h
  rw [hpath] at hstanding
  rw [hsteps] at hnodup hseen
  obtain ⟨⟨looked, hneeds, -, hlooked⟩, hrest⟩ := hstanding
  refine ⟨?_, fun a => ?_, hids, ⟨fun b hb => ?_, hsettled⟩, hrest.left, hcircuits⟩
  · exact (List.perm_middle.nodup_iff).2 hnodup
  · rw [hseen a, List.mem_cons, List.mem_cons, or_assoc, or_left_comm]
    rfl
  · rw [Needs, hneeds, List.append_nil] at hb
    rcases hlooked b hb with hb | hb | hb
    · exact .inl hb
    · exact .inr hb
    · cases hb

/-- The need that the last step on the path looks at next is one of its needs. -/
theorem Sound.needs (h : Sound g left w) (hpath : w.path = (node, need :: more) :: rest) :
    g.Needs node need := by
  have hstanding := h.standing
  rw [hpath] at hstanding
  obtain ⟨⟨looked, hneeds, -, -⟩, -⟩ := hstanding
  rw [Needs, hneeds]
  exact List.mem_append_right _ List.mem_cons_self

/-- A need was looked at, and does not change what the walk stands on. -/
theorem Standing.look {cycles : List (List String)}
    (h : Standing g cycles left none ((node, need :: more) :: rest))
    (above : Option String) (habove : ∀ b ∈ above, b = need)
    (hneed : need ∈ left ∨ Closes cycles node need ∨ need ∈ above) :
    Standing g cycles left above ((node, more) :: rest) := by
  obtain ⟨⟨looked, hneeds, -, hlooked⟩, hrest⟩ := h
  refine ⟨⟨looked ++ [need], ?_, fun b hb => ?_, fun b hb => ?_⟩, hrest⟩
  · rw [List.append_assoc]
    exact hneeds
  · rw [habove b hb]
    exact List.mem_append_right _ List.mem_cons_self
  · rcases List.mem_append.1 hb with hb | hb
    · rcases hlooked b hb with hb | hb | hb
      · exact .inl hb
      · exact .inr (.inl hb)
      · cases hb
    · rw [List.mem_singleton.1 hb]
      exact hneed

/-- A need that stands on the path closes a circuit. -/
theorem Sound.close (h : Sound g left w) (hpath : w.path = (node, need :: more) :: rest)
    (hneed : need ∈ w.steps) :
    Sound g left
      { w with path := (node, more) :: rest, cycles := w.cycles ++ [closedBy need w.steps] } := by
  have hsteps : w.steps = node :: rest.map Prod.fst := by rw [steps, hpath]; rfl
  have hneeds := h.needs hpath
  obtain ⟨hnodup, hseen, hids, hsettled, hstanding, hcircuits⟩ := h
  rw [hpath] at hstanding
  have hfound : g.Circuit (closedBy need w.steps) ∧ [node, need] <:+ closedBy need w.steps := by
    have hchain := hstanding.chain
    rw [hsteps] at hneed hnodup ⊢
    exact circuit_closedBy hchain (List.nodup_append.1 hnodup).1 hneeds hneed
  have hsub : w.cycles ⊆ w.cycles ++ [closedBy need w.steps] := List.subset_append_left _ _
  refine ⟨?_, ?_, hids, hsettled.mono hsub, ?_, fun path hmem => ?_⟩
  · rw [hsteps] at hnodup
    exact hnodup
  · rw [hsteps] at hseen
    exact hseen
  · refine (hstanding.mono hsub (List.Subset.refl _)).look none (by simp) (.inr (.inl ?_))
    exact ⟨_, List.mem_append_right _ List.mem_cons_self, hfound.2⟩
  · rcases List.mem_append.1 hmem with hmem | hmem
    · exact hcircuits path hmem
    · rw [List.mem_singleton.1 hmem]
      exact hfound.1

/-- A need that was left is passed over. -/
theorem Sound.pass (h : Sound g left w) (hpath : w.path = (node, need :: more) :: rest)
    (hneed : need ∉ w.steps) (hseen : need ∈ w.seen) :
    Sound g left { w with path := (node, more) :: rest } := by
  have hsteps : w.steps = node :: rest.map Prod.fst := by rw [steps, hpath]; rfl
  have hleft : need ∈ left := ((h.mem_seen need).1 hseen).resolve_left hneed
  obtain ⟨hnodup, hseen, hids, hsettled, hstanding, hcircuits⟩ := h
  rw [hpath] at hstanding
  rw [hsteps] at hnodup hseen
  exact ⟨hnodup, hseen, hids, hsettled, hstanding.look none (by simp) (.inl hleft), hcircuits⟩

/-- A step that was not seen before is entered, from a path of the same steps that has looked
at it. -/
theorem Sound.enter (h : Sound g left w) {id : String} (hid : id ∈ g.ids) (hnew : id ∉ w.seen)
    {path : List (String × List String)} (hsame : path.map Prod.fst = w.steps)
    (hstanding : Standing g w.cycles left (some id) path) :
    Sound g left (Walk.enter g id { w with path }) := by
  obtain ⟨hnodup, hseen, hids, hsettled, -, hcircuits⟩ := h
  refine ⟨?_, fun a => ?_, fun a ha => ?_, hsettled, ⟨⟨[], rfl, by simp, by simp⟩, ?_⟩, hcircuits⟩
  · rw [steps, Walk.enter, List.map_cons, hsame]
    refine List.nodup_cons.2 ⟨fun hmem => hnew ((hseen id).2 (List.mem_append.1 hmem)), hnodup⟩
  · rw [steps, Walk.enter, List.map_cons, hsame, List.mem_cons, List.mem_cons, hseen a, or_assoc]
  · rcases List.mem_cons.1 ha with rfl | ha
    · exact hid
    · exact hids a ha
  · exact hstanding

theorem step_of_path_nil (g : NeedsGraph) (hpath : w.path = []) : Walk.step g w = w := by
  rw [Walk.step, hpath]

theorem step_of_needs_nil (g : NeedsGraph) (hpath : w.path = (node, []) :: rest) :
    Walk.step g w = { w with path := rest } := by
  rw [Walk.step, hpath]

theorem step_of_needs_cons (g : NeedsGraph) (hpath : w.path = (node, need :: more) :: rest) :
    Walk.step g w =
      if need ∈ w.steps then
        { w with path := (node, more) :: rest, cycles := w.cycles ++ [closedBy need w.steps] }
      else if need ∈ w.seen then { w with path := (node, more) :: rest }
      else Walk.enter g need { w with path := (node, more) :: rest } := by
  rw [Walk.step, hpath]

/-- Each step of a walk keeps what holds of it. -/
theorem Sound.step (h : Sound g left w) (hclosed : g.Closed) :
    ∃ left', Sound g left' (Walk.step g w) := by
  rcases hpath : w.path with _ | ⟨⟨node, _ | ⟨need, more⟩⟩, rest⟩
  · rw [step_of_path_nil g hpath]
    exact ⟨left, h⟩
  · rw [step_of_needs_nil g hpath]
    exact ⟨node :: left, h.leave hpath⟩
  · rw [step_of_needs_cons g hpath]
    by_cases hon : need ∈ w.steps
    · rw [if_pos hon]
      exact ⟨left, h.close hpath hon⟩
    · rw [if_neg hon]
      by_cases hseen : need ∈ w.seen
      · rw [if_pos hseen]
        exact ⟨left, h.pass hpath hon hseen⟩
      · rw [if_neg hseen]
        -- the need was looked at, and is the one step that may be new on the path
        have hstanding := h.standing
        rw [hpath] at hstanding
        refine ⟨left, h.enter (hclosed.mem_ids (h.needs hpath)) hseen ?_ ?_⟩
        · rw [steps, hpath]
          rfl
        · exact hstanding.look (some need) (by simp) (.inr (.inr rfl))

/-- So do many steps. -/
theorem Sound.run (h : Sound g left w) (hclosed : g.Closed) (fuel : Nat) :
    ∃ left', Sound g left' (Walk.run g fuel w) := by
  induction fuel generalizing left w with
  | zero => exact ⟨left, h⟩
  | succ fuel ih =>
    obtain ⟨left', h'⟩ := h.step hclosed
    exact ih h'

/-- What was seen stays seen. -/
theorem mem_seen_step (g : NeedsGraph) {a : String} (ha : a ∈ w.seen) :
    a ∈ (Walk.step g w).seen := by
  rcases hpath : w.path with _ | ⟨⟨node, _ | ⟨need, more⟩⟩, rest⟩
  · rw [step_of_path_nil g hpath]
    exact ha
  · rw [step_of_needs_nil g hpath]
    exact ha
  · rw [step_of_needs_cons g hpath]
    split
    · exact ha
    · split
      · exact ha
      · exact List.mem_cons_of_mem _ ha

theorem mem_seen_run (g : NeedsGraph) {a : String} (fuel : Nat) (ha : a ∈ w.seen) :
    a ∈ (Walk.run g fuel w).seen := by
  induction fuel generalizing w with
  | zero => exact ha
  | succ fuel ih => exact ih (mem_seen_step g ha)

/-! ## A walk ends -/

/-- What entering the nodes that were not seen will cost. -/
def unseenCost (seen : List String) : List (String × List String) → Nat
  | [] => 0
  | node :: rest =>
    (if node.1 ∈ seen then 0 else node.2.length + 1) + unseenCost seen rest

/-- What looking at the open needs of a path and going back along it will cost. -/
def pathCost : List (String × List String) → Nat
  | [] => 0
  | frame :: rest => frame.2.length + 1 + pathCost rest

/-- How many steps a walk will take. -/
def cost (g : NeedsGraph) (w : Walk) : Nat := pathCost w.path + unseenCost w.seen g.nodes

theorem unseenCost_of_not_mem {nodes : List (String × List String)} {id : String}
    (h : id ∉ nodes.map Prod.fst) (seen : List String) :
    unseenCost (id :: seen) nodes = unseenCost seen nodes := by
  induction nodes with
  | nil => rfl
  | cons node nodes ih =>
    rw [List.map_cons, List.mem_cons, not_or] at h
    have hne : node.1 ≠ id := Ne.symm h.1
    rw [unseenCost, unseenCost, ih h.2]
    simp only [List.mem_cons, hne, false_or]

/-- Entering a node costs what it was said to cost. -/
theorem unseenCost_cons {nodes : List (String × List String)}
    (hnodup : (nodes.map Prod.fst).Nodup) {node : String × List String} (hmem : node ∈ nodes)
    {seen : List String} (hnew : node.1 ∉ seen) :
    unseenCost seen nodes = node.2.length + 1 + unseenCost (node.1 :: seen) nodes := by
  induction nodes with
  | nil => cases hmem
  | cons head nodes ih =>
    rw [List.map_cons, List.nodup_cons] at hnodup
    rcases List.mem_cons.1 hmem with rfl | hmem
    -- no other node has the id, so the rest costs what it did
    · rw [unseenCost, unseenCost, if_neg hnew, if_pos List.mem_cons_self,
        unseenCost_of_not_mem hnodup.1]
      omega
    · have hne : head.1 ≠ node.1 := by
        intro heq
        exact hnodup.1 (List.mem_map.2 ⟨node, hmem, heq.symm⟩)
      rw [unseenCost, unseenCost, ih hnodup.2 hmem]
      simp only [List.mem_cons, hne, false_or]
      omega

theorem unseenCost_enter (hclosed : g.Closed) {id : String} (hid : id ∈ g.ids)
    {seen : List String} (hnew : id ∉ seen) :
    unseenCost seen g.nodes =
      (g.needsOf id).length + 1 + unseenCost (id :: seen) g.nodes := by
  obtain ⟨node, hmem, rfl⟩ := List.mem_map.1 hid
  rw [unseenCost_cons hclosed.nodup hmem hnew, hclosed.needsOf_of_mem hmem]

/-- A walk that is not over comes nearer to its end with each step. -/
theorem Sound.cost_step_lt (h : Sound g left w) (hclosed : g.Closed) (hpath : w.path ≠ []) :
    cost g (Walk.step g w) < cost g w := by
  rcases hp : w.path with _ | ⟨⟨node, _ | ⟨need, more⟩⟩, rest⟩
  · exact absurd hp hpath
  -- the last step is left, a need is looked at, or a step is entered for what it was to cost
  · rw [step_of_needs_nil g hp]
    simp only [cost, hp, pathCost, List.length_nil]
    omega
  · rw [step_of_needs_cons g hp]
    split
    · simp only [cost, hp, pathCost, List.length_cons]
      omega
    · split
      · simp only [cost, hp, pathCost, List.length_cons]
        omega
      · rename_i hseen
        have hcost := unseenCost_enter hclosed (hclosed.mem_ids (h.needs hp)) hseen
        simp only [cost, hp, Walk.enter, pathCost, List.length_cons, hcost]
        omega

theorem run_of_path_nil (g : NeedsGraph) (hpath : w.path = []) (fuel : Nat) :
    Walk.run g fuel w = w := by
  induction fuel with
  | zero => rfl
  | succ fuel ih =>
    rw [Walk.run, step_of_path_nil g hpath]
    exact ih

/-- A walk that is given as many steps as it costs is over after them. -/
theorem Sound.run_path_eq_nil (h : Sound g left w) (hclosed : g.Closed) {fuel : Nat}
    (hfuel : cost g w ≤ fuel) : (Walk.run g fuel w).path = [] := by
  induction fuel generalizing left w with
  | zero =>
    rcases hpath : w.path with _ | ⟨frame, rest⟩
    · rw [Walk.run, hpath]
    · simp only [cost, hpath, pathCost] at hfuel
      omega
  | succ fuel ih =>
    by_cases hpath : w.path = []
    · rw [run_of_path_nil g hpath]
      exact hpath
    · -- what is left of the fuel is enough for what is left of the cost
      have hlt := h.cost_step_lt hclosed hpath
      obtain ⟨left', h'⟩ := h.step hclosed
      exact ih h' (by omega)

theorem unseenCost_le (seen : List String) (nodes : List (String × List String)) :
    unseenCost seen nodes ≤ nodes.foldr (fun node rest => node.2.length + 2 + rest) 0 := by
  induction nodes with
  | nil => exact Nat.le_refl _
  | cons node nodes ih =>
    rw [unseenCost, List.foldr_cons]
    split <;> omega

/-- A walk from one step costs no more than `walkLength`. -/
theorem cost_enter_le (hclosed : g.Closed) (hpath : w.path = []) {id : String} (hid : id ∈ g.ids)
    (hnew : id ∉ w.seen) : cost g (Walk.enter g id w) ≤ g.walkLength := by
  have henter := unseenCost_enter hclosed hid hnew
  have hle := unseenCost_le w.seen g.nodes
  rw [walkLength]
  simp only [cost, Walk.enter, hpath, pathCost]
  omega

end WorkflowCompiler.NeedsGraph.Walk
