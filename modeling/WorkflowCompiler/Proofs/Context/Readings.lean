import WorkflowCompiler.Proofs.Context.Leftovers
import WorkflowCompiler.Proofs.Placeholder.Grammar

/-!
# What is read alike

A placeholder is read twice. When a workflow is validated, its path is looked at as it stands: it
is a reference to outputs, or else its first segment has to be a known name. When the placeholder is
resolved, the blanks around the segments are gone. The two agree unless there are blanks around a
point that matter: behind the first segment, or around a second one that is called "outputs"
(`readAlike_iff`).
-/

namespace WorkflowCompiler

open Attempt

/-- Resolving the path is resolving a reference to the outputs of a step. -/
def ResolvesOutputs (path : String) : Prop :=
  ∃ step fields, resolve path = resolveOutput path step fields

/-- Resolving the path looks this root up: among the roots that are bound late, then among the
variables and builtins, and then in the clock. -/
def LooksUp (path root : String) : Prop :=
  ∃ fields, resolve path = fun s => (resolveBinding s.context path root fields, s)

/-- The placeholder is a reference to outputs for validation if it is resolved as one, and otherwise
its root is the one that is looked up. -/
def Placeholder.ReadAlike (p : Placeholder) : Prop :=
  (p.isOutputReference = true ↔ ResolvesOutputs p.path) ∧
    (p.isOutputReference = false → LooksUp p.path p.root)

section Resolving

variable {path root : String}

/-- Nothing is known but that a root is bound late. -/
def lateOnly (root : String) : Session := { context := { late := [root] } }

/-- Outputs that are not known are missed. -/
theorem resolveOutput_lateOnly (path step : String) (fields : List String) (root : String) :
    resolveOutput path step fields (lateOnly root) =
      (.error (.outputsUnavailable step), lateOnly root) :=
  rfl

theorem resolveBinding_lateOnly (path root : String) (fields : List String) :
    resolveBinding (lateOnly root).context path root fields = .ok .deferred :=
  if_pos List.mem_cons_self

theorem resolvesOutputs_iff :
    ResolvesOutputs path ↔ ∃ step fields, Referent.ofPath path = .output step fields := by
  rw [ResolvesOutputs, resolve]
  cases Referent.ofPath path with
  | output step fields => exact ⟨fun _ => ⟨step, fields, rfl⟩, fun _ => ⟨step, fields, rfl⟩⟩
  | binding root fields =>
    constructor
    · rintro ⟨step, other, h⟩
      have hlate := congrArg Prod.fst (congrFun h (lateOnly root))
      rw [resolveOutput_lateOnly] at hlate
      simp only [resolveBinding_lateOnly] at hlate
      cases hlate
    · rintro ⟨_, _, ⟨⟩⟩

/-- What is looked up is the root of what the path names. -/
theorem looksUp_iff :
    LooksUp path root ↔ ∃ fields, Referent.ofPath path = .binding root fields := by
  constructor
  · rintro ⟨fields, h⟩
    obtain ⟨s', hresolve, -⟩ := resolve_apply path (lateOnly root)
    have hlate : (lateOnly root).context.resolveIn path = .ok .deferred := by
      rw [h] at hresolve
      exact (congrArg Prod.fst hresolve).symm.trans (resolveBinding_lateOnly path root fields)
    have hstrict : (lateOnly root).context.Strict [root] := ⟨rfl, fun _ => id⟩
    obtain ⟨name, other, hpath, hname⟩ := hstrict.rootedIn hlate
    exact ⟨other, List.mem_singleton.1 hname ▸ hpath⟩
  · rintro ⟨fields, hpath⟩
    exact ⟨fields, by rw [resolve, hpath]⟩

end Resolving

/-- The path of a placeholder has no blanks at its ends. -/
theorem trim_path_of_mem_scan {text : String} {p : Placeholder} (h : p ∈ scan text) :
    Text.trim p.path = p.path := by
  obtain ⟨body, -, -, -, hpath, -⟩ := mem_scan_iff.1 h
  rw [hpath, Text.trim_trim]

/-- The blanks around the points of a path do not matter: if there is a second segment, there are
none around the first one, and none around the second if that is called "outputs". -/
def PointsUnblanked (path : String) : Prop :=
  ∀ first second rest, Path.segments path = first :: second :: rest →
    Text.trim first = first ∧ (Text.trim second = "outputs" → second = "outputs")

/-- What is not spelled like a reference to outputs has the root it is spelled with, unless there
are blanks that matter. -/
theorem ofPath_eq_binding_root_iff {path : String} (htrim : Text.trim path = path)
    (hreference : Path.isOutputReference path = false) :
    (∃ fields, Referent.ofPath path = .binding (Path.root path) fields) ↔ PointsUnblanked path := by
  rw [Referent.ofPath, Path.trimmedSegments, Path.root, PointsUnblanked]
  rcases hsegments : Path.segments path with _ | ⟨first, _ | ⟨second, rest⟩⟩
  · refine iff_of_true ⟨[], rfl⟩ ?_
    rintro _ _ _ ⟨⟩
  · -- the only segment is the path
    refine iff_of_true ⟨[], ?_⟩ ?_
    · rw [eq_of_segments_eq_singleton hsegments, List.map_cons, htrim]
      rfl
    · rintro _ _ _ ⟨⟩
  · have hnames : first ≠ "output" ∧ second ≠ "outputs" := by
      rw [← not_or]
      intro h
      rw [isOutputReference_iff.2 ⟨first, second, rest, hsegments, h⟩] at hreference
      cases hreference
    rw [List.map_cons, List.map_cons, Referent.ofSegments, List.headD_cons]
    constructor
    · rintro ⟨fields, h⟩
      split at h
      · cases h
      · split at h
        · cases h
        · rename_i hsecond
          rintro _ _ _ ⟨⟩
          exact ⟨(Referent.binding.inj h).1, fun houtputs => absurd houtputs hsecond⟩
    · intro h
      obtain ⟨hfirst, hsecond⟩ := h first second rest rfl
      rw [hfirst, if_neg hnames.1, if_neg fun houtputs => hnames.2 (hsecond houtputs)]
      exact ⟨_, rfl⟩

/-- A placeholder is read alike unless it is not spelled like a reference to outputs and has blanks
around a point that matter. -/
theorem readAlike_iff {text : String} {p : Placeholder} (hp : p ∈ scan text) :
    p.ReadAlike ↔ p.isOutputReference = true ∨ PointsUnblanked p.path := by
  rw [Placeholder.ReadAlike, resolvesOutputs_iff, looksUp_iff]
  cases hreference : p.isOutputReference with
  | true =>
    exact iff_of_true ⟨iff_of_true rfl (ofPath_of_isOutputReference hreference),
      fun h => absurd h.symm Bool.false_ne_true⟩ (.inl rfl)
  | false =>
    have hroot := ofPath_eq_binding_root_iff (trim_path_of_mem_scan hp) hreference
    constructor
    · exact fun h => .inr (hroot.1 (h.2 rfl))
    · intro h
      obtain ⟨fields, hpath⟩ := hroot.2 (h.resolve_left Bool.false_ne_true)
      refine ⟨iff_of_false Bool.false_ne_true ?_, fun _ => ⟨fields, hpath⟩⟩
      rintro ⟨step, other, houtput⟩
      rw [hpath] at houtput
      cases houtput

/-- A text with a field of the outputs of a step, and a field of a variable. -/
def summaryText : String :=
  "\x7b\x7b build.outputs.path \x7d\x7d for \x7b\x7bowner. name\x7d\x7d"

theorem summaryText_readAlike :
    scan summaryText = [⟨0, 24, "build.outputs.path"⟩, ⟨29, 44, "owner. name"⟩] ∧
      ∀ p ∈ scan summaryText, p.ReadAlike := by
  have hscan : scan summaryText = [⟨0, 24, "build.outputs.path"⟩, ⟨29, 44, "owner. name"⟩] := by
    decide +kernel
  refine ⟨hscan, fun p hp => (readAlike_iff hp).2 ?_⟩
  rw [hscan, List.mem_cons, List.mem_singleton] at hp
  rcases hp with rfl | rfl
  · exact .inl (by decide +kernel)
  · have hsegments : Path.segments "owner. name" = ["owner", " name"] := by decide +kernel
    refine .inr fun first second rest h => ?_
    rw [hsegments] at h
    cases h
    decide +kernel

/-- A text with a field of the outputs of a step, with blanks around the first point. -/
def blankedText : String := "\x7b\x7b build . outputs.path \x7d\x7d"

/-- It is resolved as a reference to outputs, but does not count as one. -/
theorem blankedText_not_readAlike :
    scan blankedText = [⟨0, 26, "build . outputs.path"⟩] ∧
      ResolvesOutputs "build . outputs.path" ∧
      Path.isOutputReference "build . outputs.path" = false ∧
      ¬ ∀ p ∈ scan blankedText, p.ReadAlike := by
  have hscan : scan blankedText = [⟨0, 26, "build . outputs.path"⟩] := by decide +kernel
  have houtputs : ResolvesOutputs "build . outputs.path" :=
    resolvesOutputs_iff.2 ⟨"build", ["path"], by decide +kernel⟩
  have hreference : Path.isOutputReference "build . outputs.path" = false := by decide +kernel
  refine ⟨hscan, houtputs, hreference, fun h => ?_⟩
  have halike := (h _ (hscan ▸ List.mem_singleton_self _)).1.2 houtputs
  exact Bool.false_ne_true (hreference.symm.trans halike)

end WorkflowCompiler
