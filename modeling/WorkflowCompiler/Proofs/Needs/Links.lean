import WorkflowCompiler.Proofs.Needs.CycleSearch

/-!
# Cycles read off links

A search for cycles need not keep its path. It can *mark* the steps it stands on and those it has
left, and *link* each step it enters to the step it came from; a cycle is then read off the links,
from the step with the need that closes it upwards. Links are never taken back, so those of steps
that were left are still there when another cycle is read.

Such a search goes step by step with a walk that keeps its path, and reads off the same cycles: on
the path the links lead from each step to the one below it, so that no link is missing on the way.

* `LinkedWalk` — a search with marks and links;
* `LinkedWalk.Follows` — it stands where a walk does that keeps its path, and each step keeps this
  (`LinkedWalk.Follows.step`);
* `readings_linkedSearch` — what is read off the links is what is found, and nothing is read in
  vain;
* `findCycles_circuits` — what a search finds, whatever is declared.
-/

namespace WorkflowCompiler.NeedsGraph

variable {g : NeedsGraph}

/-- How far a search has come with a step. -/
inductive Mark where
  /-- it has not come to the step -/
  | unseen
  /-- it stands on the step -/
  | standing
  /-- it has left the step -/
  | left
deriving DecidableEq

/-- A search that marks steps and links each step to the one it was entered from. -/
structure LinkedWalk where
  /-- the steps it stands on, the last one first, with how many of their needs it has looked at -/
  stack : List (String × Nat) := []
  /-- how far it has come with each step -/
  marks : Fields Mark
  /-- the step from which each step was entered -/
  links : Fields String := []
  /-- what was read off the links, whenever a need led to a step it stands on -/
  readings : List (Option (List String)) := []

namespace LinkedWalk

/-- How far the search has come with a step. There is nothing to look at in a step that it does
not know. -/
def mark (l : LinkedWalk) (id : String) : Mark := (l.marks.get? id).getD .left

/-- The steps from one step up along the links to the start, both included; nothing if a link is
missing before, or if there are more of them than the bound says. -/
def wayUp (links : Fields String) (start : String) : Nat → String → Option (List String)
  | 0, _ => none
  | bound + 1, id =>
    if id = start then some [id]
    else (links.get? id).bind fun up => (wayUp links start bound up).map (id :: ·)

/-- The cycle that a step closes by needing another one, read off the links. -/
def reading (l : LinkedWalk) (id need : String) : Option (List String) :=
  (wayUp l.links need l.stack.length id).map fun way => way.reverse ++ [need]

/-- The search stands on a step, and has looked at nothing it needs. -/
def stand (id : String) (l : LinkedWalk) : LinkedWalk :=
  { l with stack := (id, 0) :: l.stack, marks := l.marks.set id .standing }

/-- One step of a search. -/
def step (g : NeedsGraph) (l : LinkedWalk) : LinkedWalk :=
  match l.stack with
  | [] => l
  | (id, looked) :: rest =>
    match (g.needsOf id)[looked]? with
    | none => { l with stack := rest, marks := l.marks.set id .left }
    | some need =>
      let moved := { l with stack := (id, looked + 1) :: rest }
      match l.mark need with
      | .unseen => stand need { moved with links := l.links.set need id }
      | .standing => { moved with readings := l.readings ++ [moved.reading id need] }
      | .left => moved

/-- So many steps of a search. -/
def run (g : NeedsGraph) : Nat → LinkedWalk → LinkedWalk
  | 0, l => l
  | fuel + 1, l => run g fuel (step g l)

/-- No step was seen. -/
def start (g : NeedsGraph) : LinkedWalk where
  marks := Fields.ofEntries (g.ids.map fun id => (id, .unseen))

/-- Searches on from a step, unless it was seen before. -/
def searchFrom (g : NeedsGraph) (l : LinkedWalk) (id : String) : LinkedWalk :=
  if l.mark id = .unseen then run g g.walkLength (stand id { l with stack := [] }) else l

/-! ## The way up -/

/-- Where each step is linked to the one below it, a step is reached from the first one, along all
steps above it. -/
theorem wayUp_of_isChain {links : Fields String} {need : String} {id : String}
    {rest : List String} (hchain : (id :: rest).IsChain fun a b => links.get? a = some b)
    (hneed : need ∈ id :: rest) {bound : Nat} (hbound : (id :: rest).length ≤ bound) :
    wayUp links need bound id = some ((id :: rest).takeWhile (· ≠ need) ++ [need]) := by
  induction rest generalizing id bound with
  | nil =>
    obtain ⟨bound, rfl⟩ : ∃ n, bound = n + 1 := Nat.exists_eq_add_of_le' hbound
    rw [List.mem_singleton] at hneed
    rw [wayUp, if_pos hneed.symm, hneed]
    simp
  | cons up rest ih =>
    obtain ⟨bound, rfl⟩ : ∃ n, bound = n + 1 :=
      Nat.exists_eq_add_of_le' (Nat.le_trans (Nat.le_add_left 1 _) hbound)
    rw [List.isChain_cons_cons] at hchain
    by_cases hid : id = need
    · rw [wayUp, if_pos hid, hid]
      simp
    · have hup : need ∈ up :: rest := (List.mem_cons.1 hneed).resolve_left (Ne.symm hid)
      have htake : (id :: up :: rest).takeWhile (· ≠ need) =
          id :: (up :: rest).takeWhile (· ≠ need) :=
        List.takeWhile_cons_of_pos (decide_eq_true hid)
      rw [wayUp, if_neg hid, hchain.1, Option.bind_some,
        ih hchain.2 hup (Nat.le_of_succ_le_succ hbound), htake]
      rfl

/-! ## A search with links and a walk -/

variable {l : LinkedWalk} {w : Walk} {left : List String}

/-- The path that a walk keeps where a search has such a stack. -/
def pathOf (g : NeedsGraph) (stack : List (String × Nat)) : List (String × List String) :=
  stack.map fun frame => (frame.1, (g.needsOf frame.1).drop frame.2)

theorem steps_of_path_eq {stack : List (String × Nat)} (h : w.path = pathOf g stack) :
    w.steps = stack.map Prod.fst := by
  rw [Walk.steps, h, pathOf, List.map_map]
  rfl

/-- A search with marks and links stands where a walk does that keeps its path. -/
structure Follows (g : NeedsGraph) (l : LinkedWalk) (w : Walk) : Prop where
  /-- they stand on the same steps, and have looked at as many needs -/
  path_eq : w.path = pathOf g l.stack
  /-- the marks say what is on the path, and what was seen -/
  mark_eq : ∀ a ∈ g.ids,
    l.mark a = if a ∈ w.steps then .standing else if a ∈ w.seen then .left else .unseen
  /-- on the path each step is linked to the one below it -/
  links : (l.stack.map Prod.fst).IsChain fun a b => l.links.get? a = some b
  /-- what was read off the links is what was found -/
  readings_eq : l.readings = w.cycles.map some

theorem Follows.steps_eq (h : Follows g l w) : w.steps = l.stack.map Prod.fst :=
  steps_of_path_eq h.path_eq

theorem mark_of_set {l l' : LinkedWalk} {id : String} {m : Mark}
    (h : l'.marks = l.marks.set id m) (a : String) :
    l'.mark a = if id = a then m else l.mark a := by
  rw [mark, h, Fields.get?_set]
  split <;> rfl

variable {id need : String} {looked : Nat} {rest : List (String × Nat)}

/-- A step that needs nothing more is left. -/
theorem Follows.leave (h : Follows g l w) (hsound : Walk.Sound g left w)
    (hstack : l.stack = (id, looked) :: rest) (hnone : (g.needsOf id)[looked]? = none) :
    Follows g { l with stack := rest, marks := l.marks.set id .left } (Walk.step g w) := by
  have hpath : w.path = (id, []) :: pathOf g rest := by
    rw [h.path_eq, hstack, pathOf, List.map_cons,
      List.drop_eq_nil_iff.2 (List.getElem?_eq_none_iff.1 hnone)]
    rfl
  have hsteps : w.steps = id :: rest.map Prod.fst := by rw [h.steps_eq, hstack]; rfl
  have hnodup := (List.nodup_append.1 hsound.nodup).1
  have hseen : id ∈ w.seen := (hsound.mem_seen id).2 (.inl (hsteps ▸ List.mem_cons_self))
  have hlinks := h.links
  rw [hsteps, List.nodup_cons] at hnodup
  rw [hstack] at hlinks
  rw [Walk.step_of_needs_nil g hpath]
  refine ⟨rfl, fun a ha => ?_, hlinks.of_cons, h.readings_eq⟩
  have hrest : Walk.steps { w with path := pathOf g rest } = rest.map Prod.fst :=
    steps_of_path_eq rfl
  rw [mark_of_set rfl, h.mark_eq a ha, hsteps, hrest]
  by_cases hid : id = a
  · subst hid
    rw [if_pos rfl, if_neg hnodup.1, if_pos hseen]
  · have hmem : a ∈ id :: rest.map Prod.fst ↔ a ∈ rest.map Prod.fst :=
      ⟨fun hmem => (List.mem_cons.1 hmem).resolve_left (Ne.symm hid), List.mem_cons_of_mem _⟩
    simp only [hid, hmem, if_false]

/-- What both searches stand on when a need was looked at. -/
theorem Follows.path_of_need (h : Follows g l w) (hstack : l.stack = (id, looked) :: rest)
    (hneed : (g.needsOf id)[looked]? = some need) :
    w.path = (id, need :: (g.needsOf id).drop (looked + 1)) :: pathOf g rest := by
  obtain ⟨hlt, hget⟩ := List.getElem?_eq_some_iff.1 hneed
  rw [h.path_eq, hstack, pathOf, List.map_cons, List.drop_eq_getElem_cons hlt, hget]
  rfl

/-- A need that leads to a step on the path is read off the links. -/
theorem Follows.reading_eq (h : Follows g l w) (hstack : l.stack = (id, looked) :: rest)
    (hneed : need ∈ w.steps) :
    l.reading id need = some (Walk.closedBy need w.steps) := by
  have hlinks := h.links
  rw [h.steps_eq, hstack, List.map_cons] at hneed
  rw [hstack, List.map_cons] at hlinks
  have hlength : (id :: rest.map Prod.fst).length ≤ l.stack.length := by
    rw [hstack, List.length_cons, List.length_cons, List.length_map]
  rw [reading, wayUp_of_isChain hlinks hneed hlength, Option.map_some, h.steps_eq, hstack,
    List.map_cons, Walk.closedBy, List.reverse_append]
  rfl

theorem Follows.steps_look (h : Follows g l w) (hstack : l.stack = (id, looked) :: rest) :
    Walk.steps { w with path := pathOf g ((id, looked + 1) :: rest) } = w.steps := by
  have hsame : l.stack.map Prod.fst = ((id, looked + 1) :: rest).map Prod.fst := by
    rw [hstack]
    rfl
  rw [h.steps_eq, hsame]
  exact steps_of_path_eq rfl

/-- A need that was looked at changes nothing but how far the search has come with its step. -/
theorem Follows.look (h : Follows g l w) (hstack : l.stack = (id, looked) :: rest) :
    Follows g { l with stack := (id, looked + 1) :: rest }
      { w with path := pathOf g ((id, looked + 1) :: rest) } := by
  have hlinks := h.links
  rw [hstack] at hlinks
  refine ⟨rfl, fun a ha => ?_, hlinks, h.readings_eq⟩
  rw [h.steps_look hstack]
  exact h.mark_eq a ha

/-- A step that was not seen is entered, and linked to the step it is entered from. -/
theorem Follows.enter (h : Follows g l w) (hon : need ∉ w.steps)
    {links : Fields String} (hold : ∀ a, a ≠ need → links.get? a = l.links.get? a)
    (hup : ∀ a ∈ w.steps.head?, links.get? need = some a) :
    Follows g (stand need { l with links := links }) (Walk.enter g need w) := by
  have hsteps : (Walk.enter g need w).steps = need :: w.steps := rfl
  refine ⟨?_, fun a ha => ?_, ?_, h.readings_eq⟩
  · rw [Walk.enter, stand, h.path_eq]
    rfl
  · rw [mark_of_set (l := l) rfl, hsteps, h.mark_eq a ha]
    by_cases hid : need = a
    · simp [hid]
    · simp [hid, Ne.symm hid, Walk.enter]
  · rw [stand, List.map_cons, ← h.steps_eq, List.isChain_cons]
    refine ⟨hup, ?_⟩
    have hchain := h.links
    rw [← h.steps_eq] at hchain
    refine hchain.imp_of_mem_imp fun a b ha hb hlink => ?_
    rw [hold a fun heq => hon (heq ▸ ha)]
    exact hlink

/-- One step of a search with links stays with a walk that keeps its path. -/
theorem Follows.step (h : Follows g l w) (hsound : Walk.Sound g left w) (hclosed : g.Closed) :
    Follows g (LinkedWalk.step g l) (Walk.step g w) := by
  rcases hstack : l.stack with _ | ⟨⟨id, looked⟩, rest⟩
  · have hpath : w.path = [] := by rw [h.path_eq, hstack]; rfl
    rw [LinkedWalk.step, hstack, Walk.step_of_path_nil g hpath]
    exact h
  rcases hneed : (g.needsOf id)[looked]? with _ | need
  · rw [LinkedWalk.step, hstack]
    simp only [hneed]
    exact h.leave hsound hstack hneed
  have hpath := h.path_of_need hstack hneed
  have hmark := h.mark_eq need (hclosed.mem_ids (hsound.needs hpath))
  have hlook := h.look hstack
  have hsteps := h.steps_look hstack
  rw [LinkedWalk.step, hstack, Walk.step_of_needs_cons g hpath]
  simp only [hneed]
  by_cases hon : need ∈ w.steps
  · rw [if_pos hon] at hmark ⊢
    have hreading := hlook.reading_eq rfl (hsteps ▸ hon)
    rw [hsteps] at hreading
    simp only [hmark]
    refine ⟨hlook.path_eq, hlook.mark_eq, hlook.links, ?_⟩
    rw [hreading, h.readings_eq, List.map_append]
    rfl
  · rw [if_neg hon] at hmark ⊢
    by_cases hseen : need ∈ w.seen
    · rw [if_pos hseen] at hmark ⊢
      simp only [hmark]
      exact hlook
    · rw [if_neg hseen] at hmark ⊢
      simp only [hmark]
      refine hlook.enter (hsteps ▸ hon) (fun a ha => ?_) fun a ha => ?_
      · rw [Fields.get?_set, if_neg (Ne.symm ha)]
      · rw [Fields.get?_set, if_pos rfl]
        exact ha

/-- So do many steps. -/
theorem Follows.run (h : Follows g l w) (hsound : Walk.Sound g left w) (hclosed : g.Closed)
    (fuel : Nat) : Follows g (LinkedWalk.run g fuel l) (Walk.run g fuel w) := by
  induction fuel generalizing l w left with
  | zero => exact h
  | succ fuel ih =>
    obtain ⟨left', hsound'⟩ := hsound.step hclosed
    exact ih (h.step hsound hclosed) hsound'

/-! ## The whole search -/

theorem follows_start (hclosed : g.Closed) : Follows g (start g) {} where
  path_eq := rfl
  mark_eq := fun a ha => by
    have hnames : ((g.ids.map fun id => (id, Mark.unseen)).map Prod.fst).Nodup := by
      rw [List.map_map]
      exact (List.map_id g.ids).symm ▸ hclosed.nodup
    have hentry := List.mem_map_of_mem (f := fun id => (id, Mark.unseen)) ha
    rw [mark, start, Fields.get?_ofEntries_of_mem hnames hentry]
    rfl
  links := List.isChain_nil
  readings_eq := rfl

/-- Searching on from a step goes with walking on from it. -/
theorem Follows.searchFrom (h : Follows g l w) (hover : Over g w) (hclosed : g.Closed)
    {id : String} (hid : id ∈ g.ids) :
    Follows g (LinkedWalk.searchFrom g l id) (g.walkFrom w id) := by
  have hsteps : w.steps = [] := by rw [Walk.steps, hover.1]; rfl
  have hstack : l.stack = [] := List.map_eq_nil_iff.1 (h.steps_eq ▸ hsteps)
  have hmark := h.mark_eq id hid
  rw [hsteps, if_neg List.not_mem_nil] at hmark
  rw [LinkedWalk.searchFrom, hmark, walkFrom]
  by_cases hseen : id ∈ w.seen
  · rw [if_pos hseen, if_pos hseen, if_neg (by decide)]
    exact h
  · rw [if_neg hseen, if_neg hseen, if_pos rfl]
    obtain ⟨left, hsound⟩ := hover.exists_sound_enter hid hseen
    have henter : Follows g (stand id { l with links := l.links }) (w.enter g id) := by
      refine h.enter (hsteps ▸ List.not_mem_nil) (fun _ _ => rfl) ?_
      -- nothing stands below the first step
      simp [hsteps]
    have hsame : { l with stack := [] } = l := by rw [← hstack]
    rw [hsame]
    exact henter.run hsound hclosed _

theorem Follows.foldl_searchFrom (h : Follows g l w) (hover : Over g w) (hclosed : g.Closed)
    {ids : List String} (hids : ids ⊆ g.ids) :
    Follows g (ids.foldl (LinkedWalk.searchFrom g) l) (ids.foldl g.walkFrom w) := by
  induction ids generalizing l w with
  | nil => exact h
  | cons id ids ih =>
    rw [List.cons_subset] at hids
    exact ih (h.searchFrom hover hclosed hids.1) (hover.walkFrom hclosed hids.1).1 hids.2

end LinkedWalk

/-- The search with links, from each of some steps in turn. -/
def linkedSearch (g : NeedsGraph) (ids : List String) : LinkedWalk :=
  ids.foldl (LinkedWalk.searchFrom g) (.start g)

theorem follows_linkedSearch (hclosed : g.Closed) {ids : List String} (hids : ids ⊆ g.ids) :
    LinkedWalk.Follows g (g.linkedSearch ids) (ids.foldl g.walkFrom {}) :=
  (LinkedWalk.follows_start hclosed).foldl_searchFrom (over_start g) hclosed hids

/-- The search ends, from whichever steps it starts. -/
theorem stack_linkedSearch (hclosed : g.Closed) {ids : List String} (hids : ids ⊆ g.ids) :
    (g.linkedSearch ids).stack = [] := by
  have hfollows := follows_linkedSearch hclosed hids
  have hpath := ((over_start g).foldl_walkFrom hclosed hids).1.1
  rw [hfollows.path_eq] at hpath
  exact List.map_eq_nil_iff.1 hpath

/-- What is read off the links is what is found, and nothing is read in vain. -/
theorem readings_linkedSearch (hclosed : g.Closed) :
    (g.linkedSearch g.ids).readings = g.findCycles.map some :=
  (follows_linkedSearch hclosed (List.Subset.refl g.ids)).readings_eq

/-- Whatever is declared, a search ends from each step it starts from; what it finds are ways of at
least one need that end where they start, come by no other step twice, and along which each step
declares that it needs the next one, which is declared too; and where these are read off links, each
time the way up meets the start. -/
theorem findCycles_circuits (declared : List (String × List String)) :
    (∀ ids, ids <+: (ofDeclared declared).ids →
      (ids.foldl (ofDeclared declared).walkFrom {}).path = [] ∧
        ((ofDeclared declared).linkedSearch ids).stack = []) ∧
    ((ofDeclared declared).linkedSearch (ofDeclared declared).ids).readings =
      (ofDeclared declared).findCycles.map some ∧
    ∀ path ∈ (ofDeclared declared).findCycles,
      2 ≤ path.length ∧ path.head? = path.getLast? ∧ path.dropLast.Nodup ∧
        ∀ u v, [u, v] <:+: path →
          (∃ node ∈ declared, node.1 = u ∧ v ∈ node.2) ∧ v ∈ declared.map Prod.fst := by
  have hclosed := closed_ofDeclared declared
  refine ⟨fun ids hids => ?_, readings_linkedSearch hclosed, fun path hpath => ?_⟩
  · exact ⟨((over_start _).foldl_walkFrom hclosed hids.subset).1.1,
      stack_linkedSearch hclosed hids.subset⟩
  · have hcircuit := circuit_of_mem_findCycles hclosed hpath
    exact ⟨hcircuit.two_le_length, hcircuit.head?_eq_getLast?, hcircuit.nodup,
      fun u v hnext => needs_ofDeclared.1 (hcircuit.needs hnext)⟩

/-- The link of a step that was left is not followed: the second cycle does not come by `b`. -/
example :
    ((ofDeclared [("a", ["b", "c"]), ("b", ["a"]), ("c", ["b", "a"])]).linkedSearch
      ["a", "b", "c"]).readings = [some ["a", "b", "a"], some ["a", "c", "a"]] := by
  decide +kernel

end WorkflowCompiler.NeedsGraph
