import Mathlib.Data.List.Chain
import Mathlib.Data.List.Nodup
import WorkflowCompiler.Proofs.Attempts
import WorkflowCompiler.Proofs.Library.Bound

/-!
# References that lead in a circle

The tracker keeps the keys of the workflows on the way to where references are followed
(`Tracker.Follows`). So the circle that is reported is the end of that way, and leads back to where
it starts (`Tracker.Follows.circle`). Among whole documents nothing else is reported
(`Library.circular_of_walk_eq_error`), and what ends without an error has no circles. So circles are
reported exactly if references lead in circles (`TreeStart.circular_iff`), as far as different
workflows have different keys.
-/

namespace WorkflowCompiler

open Relation (ReflTransGen TransGen)

/-! ## Circles -/

namespace Documents

variable {docs : Documents} {root : Address}

/-- The keys are those of workflows that are reached from the root, each of which refers to the
next, and lead from one key back to it past no other key twice. -/
structure Circle (docs : Documents) (root : Address) (circle : List String) : Prop where
  /-- each workflow has a reference to the next -/
  refers : ∃ way : List Address, way.map Address.key = circle ∧ way.IsChain docs.Refers ∧
    ∀ a ∈ way, docs.Reaches root a
  /-- the last key is the first one -/
  closed : ∃ key rest, circle = key :: rest ++ [key]
  /-- up to its end the circle has every key once -/
  nodup : circle.dropLast.Nodup

/-- Different workflows that are reached have different keys. -/
def KeysDiffer (docs : Documents) (root : Address) : Prop :=
  ∀ a b, docs.Reaches root a → docs.Reaches root b → a.key = b.key → a = b

/-- Where different workflows have different keys, a circle of keys is one of references. -/
theorem Circle.exists_transGen {circle : List String} (h : docs.Circle root circle)
    (hkeys : docs.KeysDiffer root) : ∃ a, docs.Reaches root a ∧ TransGen docs.Refers a a := by
  obtain ⟨way, hway, hchain, hreached⟩ := h.refers
  obtain ⟨key, rest, hcircle⟩ := h.closed
  rw [hcircle, List.map_eq_append_iff] at hway
  obtain ⟨start, last, rfl, hstart, hlast⟩ := hway
  obtain ⟨a, between, rfl, ha, -⟩ := List.map_eq_cons_iff.1 hstart
  obtain ⟨b, rfl, hb⟩ := List.map_eq_singleton_iff.1 hlast
  have hareached : docs.Reaches root a := hreached a (by simp)
  have hba : b = a := hkeys b a (hreached b (by simp)) hareached (hb.trans ha.symm)
  -- each workflow of the chain leads to all later ones, and the last one is the first
  have hleads := List.isChain_iff_pairwise.1 (hchain.imp fun _ _ hstep => TransGen.single hstep)
  have hab : TransGen docs.Refers a b := List.rel_of_pairwise_cons hleads (by simp)
  rw [hba] at hab
  exact ⟨a, hareached, hab⟩

/-- A way from the root, its last workflow first. -/
structure Way (docs : Documents) (root : Address) (path : List Address) : Prop where
  /-- each workflow has a reference from the one before it -/
  chain : path.IsChain fun a b => docs.Refers b a
  /-- all of them are reached -/
  reached : ∀ a ∈ path, docs.Reaches root a

theorem way_root (docs : Documents) (root : Address) : docs.Way root [root] where
  chain := List.isChain_singleton _
  reached := by
    intro a ha
    rw [List.mem_singleton.1 ha]
    exact .refl

/-- A way goes on by a reference of its last workflow. -/
theorem Way.cons {a b : Address} {path : List Address} (h : docs.Way root (a :: path))
    (hstep : docs.Refers a b) : docs.Way root (b :: a :: path) where
  chain := List.isChain_cons_cons.2 ⟨hstep, h.chain⟩
  reached := List.forall_mem_cons.2 ⟨(h.reached a List.mem_cons_self).tail hstep, h.reached⟩

end Documents

/-! ## The tracker on the way -/

/-- The tracker keeps the keys of the workflows of a path, which all differ. -/
structure Tracker.Follows (t : Tracker) (path : List Address) : Prop where
  /-- the keys as a set -/
  inProgress : t.inProgress = path.map Address.key
  /-- the keys in their order -/
  stack : t.stack = path.map Address.key
  /-- no key stands twice -/
  nodup : (path.map Address.key).Nodup

namespace Tracker

theorem follows_nil : ({} : Tracker).Follows [] where
  inProgress := rfl
  stack := rfl
  nodup := List.nodup_nil

theorem Follows.entered {t : Tracker} {path : List Address} {a : Address} (h : t.Follows path)
    (hnew : a.key ∉ t.inProgress) : (t.entered a.key).Follows (a :: path) where
  inProgress := by rw [Tracker.entered, h.inProgress, List.map_cons]
  stack := by rw [Tracker.entered, h.stack, List.map_cons]
  nodup := by
    rw [h.inProgress] at hnew
    exact List.nodup_cons.2 ⟨hnew, h.nodup⟩

/-- A workflow that is entered again closes a circle. -/
theorem Follows.circle {t : Tracker} {path : List Address} {a : Address} {docs : Documents}
    {root : Address} (h : t.Follows path) (hway : docs.Way root (a :: path))
    (hmem : a.key ∈ t.inProgress) : docs.Circle root (t.circle a.key) := by
  have hchain : t.chain = path.reverse.map Address.key := by
    rw [chain, h.stack, List.map_reverse]
  rw [h.inProgress, ← List.mem_reverse, ← List.map_reverse] at hmem
  obtain ⟨before, after, hsplit, hnot⟩ := List.eq_append_cons_of_mem hmem
  rw [circle_eq (hchain.trans hsplit) hnot]
  -- the end of the way, from where the key was entered on, and the workflow once more
  obtain ⟨upper, lower, hpath, -, hlower⟩ := List.map_eq_append_iff.1 hsplit
  refine ⟨⟨lower ++ [a], ?_, ?_, fun b hb => hway.reached b ?_⟩, ⟨_, _, rfl⟩, ?_⟩
  · rw [List.map_append, hlower, List.map_singleton]
  · have hall : ((a :: path).reverse).IsChain docs.Refers := List.isChain_reverse.2 hway.chain
    rw [List.reverse_cons, hpath, List.append_assoc] at hall
    exact hall.right_of_append
  · rw [← List.mem_reverse, List.reverse_cons, hpath, List.append_assoc]
    exact List.mem_append_right _ hb
  · rw [List.dropLast_concat]
    have hnodup : (path.reverse.map Address.key).Nodup := by
      rw [List.map_reverse, List.nodup_reverse]
      exact h.nodup
    rw [hsplit] at hnodup
    exact (List.nodup_append.1 hnodup).2.1

end Tracker

/-! ## What is reported -/

namespace Library

variable {l : Library} {d : Disk} {docs : Documents} {fuel : Nat} {tracker : Tracker}
  {modules : Fields Module} {root : Address} {file : String} {workflow origin : Option String}

/-- Where a circle is reported, what is asked for is found. -/
theorem exists_selects_of_walk_eq_error {circle : List String} (hloaded : docs.Loaded l d modules)
    (h : l.walk d fuel tracker modules file workflow origin = .error (.circular circle)) :
    ∃ a, docs.Selects file workflow a := by
  cases fuel with
  | zero => cases h
  | succ fuel =>
    have hvisit := walk_visit hloaded fuel tracker file workflow origin
    rw [h] at hvisit
    cases hvisit with
    | missing _ he hr =>
      cases hr
      exact he.elim
    | internal hselects => exact ⟨_, hselects⟩
    | circular hselects => exact ⟨_, hselects⟩
    | entered hselects => exact ⟨_, hselects⟩

/-- The circle that is reported while references are followed is one of references. -/
theorem circle_of_walk_eq_error {path : List Address} {circle : List String}
    (hloaded : docs.Loaded l d modules) (hfollows : tracker.Follows path)
    (hway : ∀ a, docs.Selects file workflow a → docs.Way root (a :: path))
    (h : l.walk d fuel tracker modules file workflow origin = .error (.circular circle)) :
    docs.Circle root circle := by
  induction fuel generalizing tracker modules file workflow origin path with
  | zero => cases h
  | succ fuel ih =>
    have hvisit := walk_visit hloaded fuel tracker file workflow origin
    rw [h] at hvisit
    cases hvisit with
    | missing _ he hr =>
      cases hr
      exact he.elim
    | internal _ _ hr => cases hr
    | @circular a hselects hmem hr =>
      cases hr
      exact hfollows.circle (hway a hselects) hmem
    | @entered a w modules' hselects hholds _ hnew hloaded' _ hr =>
      obtain ⟨text, htext, modules₁, hloaded₁, herror⟩ := exists_of_follow_eq_error hloaded' hr.symm
      refine ih hloaded₁ (hfollows.entered hnew) (fun b hb => ?_) herror
      exact (hway a hselects).cons ⟨w, text, hholds, mem_references_iff.1 htext, hb⟩

/-- Among whole documents nothing but circles is reported. -/
theorem circular_of_walk_eq_error {a : Address} {e : LoadError} (hwhole : docs.Whole root)
    (hloaded : docs.Loaded l d modules) (hreached : docs.Reaches root a)
    (hselects : docs.Selects file workflow a) (hopen : docs.Open origin a)
    (h : l.walk d fuel tracker modules file workflow origin = .error e) :
    e = .endless ∨ ∃ circle, e = .circular circle := by
  induction fuel generalizing tracker modules file workflow origin a with
  | zero =>
    cases h
    exact .inl rfl
  | succ fuel ih =>
    have hvisit := walk_visit hloaded fuel tracker file workflow origin
    rw [h] at hvisit
    cases hvisit with
    | missing hnone => exact absurd hselects (hnone a)
    | internal hselects' hclosed =>
      rw [hselects'.unique hselects] at hclosed
      exact absurd hopen hclosed
    | circular _ _ hr =>
      cases hr
      exact .inr ⟨_, rfl⟩
    | @entered a' w modules' hselects' hholds _ _ hloaded' _ hr =>
      have ha : a' = a := hselects'.unique hselects
      subst ha
      obtain ⟨text, htext, modules₁, hloaded₁, herror⟩ := exists_of_follow_eq_error hloaded' hr.symm
      have hrefers : w.RefersBy text := mem_references_iff.1 htext
      obtain ⟨b, hb, hbopen⟩ := hwhole.exists_open hreached hholds hrefers
      exact ih hloaded₁ (hreached.tail ⟨w, text, hholds, hrefers, hb⟩) hb hbopen herror

end Library

namespace TreeStart

variable {l : Library} {d : Disk} {start : TreeStart}

/-- The circle that is reported is one of references that are reached from what is asked for. -/
theorem circle_of_load_eq_error {circle : List String}
    (h : start.load l d = .error (.circular circle)) :
    ∃ file workflow root, start.asked? = some (file, workflow) ∧
      (start.documents l d).Selects file workflow root ∧
      (start.documents l d).Circle root circle := by
  rcases hasked : start.asked? with _ | ⟨file, workflow⟩
  · obtain ⟨text, herror⟩ := load_of_not_asked (l := l) (d := d) hasked
    rw [herror] at h
    cases h
  · rw [load_eq_error_iff hasked] at h
    have hloaded := loaded_given l d start
    obtain ⟨root, hroot⟩ := Library.exists_selects_of_walk_eq_error hloaded h
    refine ⟨file, workflow, root, rfl, hroot,
      Library.circle_of_walk_eq_error hloaded Tracker.follows_nil (fun a ha => ?_) h⟩
    rw [ha.unique hroot]
    exact Documents.way_root _ _

/-- Where whole documents have references that lead in a circle, a circle is reported. -/
theorem exists_circular_of_transGen {file : String} {workflow : Option String} {root a : Address}
    (hasked : start.asked? = some (file, workflow))
    (hroot : (start.documents l d).Selects file workflow root)
    (hwhole : (start.documents l d).Whole root) (hreached : (start.documents l d).Reaches root a)
    (hback : TransGen (start.documents l d).Refers a a) :
    ∃ circle, start.load l d = .error (.circular circle) := by
  have hloaded := loaded_given l d start
  rcases hwalk : l.walk d (l.walkBound d start.given) {} start.given file workflow none
    with e | modules
  · rcases Library.circular_of_walk_eq_error hwhole hloaded .refl hroot hwhole.open_root hwalk
      with rfl | ⟨circle, rfl⟩
    · exact absurd hwalk (l.walk_walkBound_ne_endless d start.given file workflow)
    · exact ⟨circle, (load_eq_error_iff hasked).2 hwalk⟩
  · -- what was explored does not come back
    obtain ⟨-, ⟨root', hroot', -, hexplored⟩, -⟩ := Library.explored_of_walk hloaded hwalk
    rw [hroot'.unique hroot] at hexplored
    exact absurd hback (hexplored.acyclic a hreached)

/-- Loading a tree comes to an end, however long a way may be. A circle that is reported leads along
references back to its start. Where all references lead to workflows, none to an internal one of
another document, and different workflows have different keys, a circle is reported if and only if a
workflow that is reached refers to itself, directly or through others. -/
theorem circular_iff (l : Library) (d : Disk) (start : TreeStart) :
    start.load l d ≠ .error .endless ∧
    (∀ file workflow fuel, start.asked? = some (file, workflow) →
      l.walkBound d start.given ≤ fuel →
      start.load l d = (l.walk d fuel {} start.given file workflow none).map fun modules =>
        { root := file, modules }) ∧
    (∀ circle, start.load l d = .error (.circular circle) →
      ∃ file workflow root, start.asked? = some (file, workflow) ∧
        (start.documents l d).Selects file workflow root ∧
        (start.documents l d).Circle root circle) ∧
    ∀ file workflow root, start.asked? = some (file, workflow) →
      (start.documents l d).Selects file workflow root → (start.documents l d).Whole root →
      (start.documents l d).KeysDiffer root →
      ((∃ circle, start.load l d = .error (.circular circle)) ↔
        ∃ a, (start.documents l d).Reaches root a ∧
          TransGen (start.documents l d).Refers a a) := by
  refine ⟨load_ne_endless l d start, fun file workflow fuel => load_of_walkBound_le,
    fun circle => circle_of_load_eq_error,
    fun file workflow root hasked hroot hwhole hkeys => ⟨?_, ?_⟩⟩
  · rintro ⟨circle, hcircular⟩
    obtain ⟨file', workflow', root', hasked', hroot', hcircle⟩ := circle_of_load_eq_error hcircular
    rw [hasked, Option.some.injEq, Prod.mk.injEq] at hasked'
    rw [← hasked'.1, ← hasked'.2] at hroot'
    rw [hroot'.unique hroot] at hcircle
    exact hcircle.exists_transGen hkeys
  · rintro ⟨a, hreached, hback⟩
    exact exists_circular_of_transGen hasked hroot hwhole hreached hback

end TreeStart

/-- Two documents that refer to each other. -/
def mutualLibrary : Library where
  embedded :=
    [("build", "[[main.steps]]\nid=\"check\"\ntemplate=\"test\""),
      ("test", "[[main.steps]]\nid=\"make\"\ntemplate=\"build\"")]

/-- The address of the workflow that stands for a whole document. -/
def Address.entry (file : String) : Address := ⟨file, Module.entryKey⟩

/-- What can be computed of an entry workflow, as facts about documents. -/
theorem mutualLibrary_entry (file : String) (texts : List String)
    (h : (((mutualLibrary.load {} file).toOption.bind (Module.get? · Module.entryKey)).map
      fun w => (w.internal, references w.steps)) = some (false, texts)) :
    Documents.Selects (mutualLibrary.load {}) file none (.entry file) ∧
      ∃ w, Documents.Holds (mutualLibrary.load {}) (.entry file) w ∧ w.internal = false ∧
        references w.steps = texts := by
  obtain ⟨w, hw, hfacts⟩ := Option.map_eq_some_iff.1 h
  obtain ⟨m, hm, hget⟩ := Option.bind_eq_some_iff.1 hw
  have hok := Attempt.eq_ok_of_toOption_eq_some hm
  rw [Prod.mk.injEq] at hfacts
  exact ⟨⟨rfl, m, w, hok, .entry hget⟩, w, ⟨m, hok, hget⟩, hfacts⟩

/-- A circle is reported, as the entry workflows of both documents refer to each other. -/
theorem mutualLibrary_circular :
    ((TreeStart.reference "build").documents mutualLibrary {}).Whole (.entry "build") ∧
    ((TreeStart.reference "build").documents mutualLibrary {}).KeysDiffer (.entry "build") ∧
    ∃ circle, (TreeStart.reference "build").load mutualLibrary {} = .error (.circular circle) := by
  obtain ⟨hbuild, w, hw, hinternal, hrefers⟩ :=
    mutualLibrary_entry "build" ["test"] (by decide +kernel)
  obtain ⟨htest, w', hw', hinternal', hrefers'⟩ :=
    mutualLibrary_entry "test" ["build"] (by decide +kernel)
  have hasked : Reference.asked (Address.entry "build").file "test" = ("test", none) := by
    decide +kernel
  have hasked' : Reference.asked (Address.entry "test").file "build" = ("build", none) := by
    decide +kernel
  have hgo : Documents.Refers (mutualLibrary.load {}) (.entry "build") (.entry "test") :=
    ⟨w, "test", hw, mem_references_iff.1 (by simp [hrefers]), by rw [hasked]; exact htest⟩
  have hback : Documents.Refers (mutualLibrary.load {}) (.entry "test") (.entry "build") :=
    ⟨w', "build", hw', mem_references_iff.1 (by simp [hrefers']), by rw [hasked']; exact hbuild⟩
  obtain ⟨hwhole, hknown⟩ : Documents.Whole (mutualLibrary.load {}) (.entry "build") ∧
      ∀ a, Documents.Reaches (mutualLibrary.load {}) (.entry "build") a →
        a ∈ [Address.entry "build", .entry "test"] := by
    refine Documents.whole_of_closed List.mem_cons_self
      (List.forall_mem_cons.2 ⟨⟨w, hw, hinternal, ?_⟩,
        List.forall_mem_singleton.2 ⟨w', hw', hinternal', ?_⟩⟩)
    · rw [hrefers, List.forall_mem_singleton, hasked]
      exact ⟨_, List.mem_cons_of_mem _ List.mem_cons_self, htest⟩
    · rw [hrefers', List.forall_mem_singleton, hasked']
      exact ⟨_, List.mem_cons_self, hbuild⟩
  have hkeys : Documents.KeysDiffer (mutualLibrary.load {}) (.entry "build") := by
    have hnodup : ([Address.entry "build", .entry "test"].map Address.key).Nodup := by
      decide +kernel
    intro a b ha hb hkey
    exact List.inj_on_of_nodup_map hnodup (hknown a ha) (hknown b hb) hkey
  refine ⟨hwhole, hkeys, ?_⟩
  exact ((TreeStart.circular_iff mutualLibrary {} (.reference "build")).2.2.2 "build" none
    (.entry "build") (by decide +kernel) hbuild hwhole hkeys).2
    ⟨.entry "build", .refl, .tail (.single hgo) hback⟩
end WorkflowCompiler
