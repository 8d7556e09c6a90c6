import WorkflowCompiler.Proofs.Context.Changes
import WorkflowCompiler.Proofs.Context.Substitution
import WorkflowCompiler.Proofs.Placeholder.Paths

/-!
# Placeholders that a substitution leaves

A context that does not defer is *strict*: the only placeholders that a substitution leaves are
those whose roots are bound late (`Context.Strict.leftTo_of_substituteIn`). No reference to outputs
is among them, and in a strict context that binds nothing late no placeholder is left at all
(`leftTo_nil`).
-/

namespace WorkflowCompiler

/-- The path names a variable or builtin, and its root is one of these. -/
def RootedIn (roots : List String) (path : String) : Prop :=
  ∃ root fields, Referent.ofPath path = .binding root fields ∧ root ∈ roots

instance (roots : List String) (path : String) : Decidable (RootedIn roots path) :=
  match hpath : Referent.ofPath path with
  | .output _ _ => .isFalse fun ⟨_, _, hbinding, _⟩ => by rw [hpath] at hbinding; cases hbinding
  | .binding root fields =>
    decidable_of_iff (root ∈ roots) <| by
      constructor
      · exact fun hroot => ⟨root, fields, hpath, hroot⟩
      · rintro ⟨_, _, hbinding, hroot⟩
        rw [hpath] at hbinding
        cases hbinding
        exact hroot

/-- The placeholders of the text are left to these roots. -/
def LeftTo (roots : List String) (text : String) : Prop :=
  ∀ path ∈ placeholderPaths text, RootedIn roots path

theorem hasPlaceholders_eq_false_iff {text : String} :
    hasPlaceholders text = false ↔ placeholderPaths text = [] := by
  rw [← scan_map_path, List.map_eq_nil_iff, hasPlaceholders_eq, Bool.not_eq_false',
    List.isEmpty_iff]

/-- Nothing is left to no roots. -/
theorem leftTo_nil {text : String} : LeftTo [] text ↔ hasPlaceholders text = false := by
  rw [hasPlaceholders_eq_false_iff, List.eq_nil_iff_forall_not_mem]
  refine forall₂_congr fun path _ => ⟨?_, fun h => h.elim⟩
  rintro ⟨root, fields, -, hroot⟩
  exact absurd hroot List.not_mem_nil

theorem leftTo_of_hasPlaceholders {roots : List String} {text : String}
    (h : hasPlaceholders text = false) : LeftTo roots text := by
  rw [LeftTo, hasPlaceholders_eq_false_iff.1 h]
  exact fun path hpath => absurd hpath List.not_mem_nil

/-- A path that is spelled like a reference to outputs is one. -/
theorem RootedIn.isOutputReference_eq_false {roots : List String} {path : String}
    (h : RootedIn roots path) : Path.isOutputReference path = false := by
  obtain ⟨root, fields, hpath, -⟩ := h
  refine Bool.eq_false_iff.2 fun hreference => ?_
  obtain ⟨step, rest, houtput⟩ := ofPath_of_isOutputReference hreference
  rw [hpath] at houtput
  cases houtput

namespace Context

/-- The context does not defer, and only these roots are bound late. -/
structure Strict (roots : List String) (c : Context) : Prop where
  /-- it does not defer -/
  deferred_eq : c.deferred = false
  /-- the roots that are bound late are among these -/
  late_sub : ∀ name ∈ c.late, name ∈ roots

variable {roots : List String} {c : Context}

theorem map_value_ne_deferred (x : Except ResolutionError Json) :
    x.map Resolution.value ≠ .ok .deferred := by
  cases x <;> exact fun h => by cases h

theorem fieldOfOutputs_ne_deferred (path step : String) (fields : List String)
    (outputs : Fields Json) : fieldOfOutputs path step fields outputs ≠ .ok .deferred := by
  cases fields with
  | nil => exact fun h => by cases h
  | cons field deeper =>
    rw [fieldOfOutputs]
    cases outputs.get? field with
    | none => exact fun h => by cases h
    | some inner => exact map_value_ne_deferred _

/-- What has to wait is rooted in what is bound late. -/
theorem Strict.rootedIn (hc : c.Strict roots) {path : String}
    (h : c.resolveIn path = .ok .deferred) : RootedIn roots path := by
  rw [resolveIn] at h
  cases hpath : Referent.ofPath path with
  | output step fields =>
    exfalso
    simp only [hpath, outputsIn, hc.deferred_eq] at h
    rcases hknown : c.known? step with _ | outputs
    · rw [hknown] at h
      cases h
    · simp only [hknown] at h
      exact fieldOfOutputs_ne_deferred path step fields outputs h
  | binding root fields =>
    simp only [hpath, resolveBinding] at h
    by_cases hlate : root ∈ c.late
    · exact ⟨root, fields, hpath, hc.late_sub root hlate⟩
    · exfalso
      rw [if_neg hlate] at h
      split at h
      · exact map_value_ne_deferred _ h
      · split at h <;> cases h

/-- A pass that replaces nothing leaves the pieces as they stand, and every placeholder among them
has to wait. -/
theorem deferred_of_expandIn {write : Json → String} {ps : List Piece} {next : List Char}
    (h : c.expandIn write ps = .ok (next, false)) :
    next = ps.flatMap Piece.chars ∧
      ∀ path ∈ ps.filterMap Piece.path?, c.resolveIn path = .ok .deferred := by
  induction ps generalizing next with
  | nil =>
    cases h
    exact ⟨rfl, fun path hpath => absurd hpath List.not_mem_nil⟩
  | cons piece rest ih =>
    obtain ⟨⟨head, replaced⟩, hhead, h⟩ := exists_of_bind_eq_ok h
    obtain ⟨⟨tail, later⟩, htail, h⟩ := exists_of_bind_eq_ok h
    rw [Except.ok.injEq, Prod.mk.injEq, Bool.or_eq_false_iff] at h
    obtain ⟨rfl, rfl, rfl⟩ := h
    obtain ⟨rfl, hrest⟩ := ih htail
    rw [expandPieceIn] at hhead
    rcases hpiece : piece.path? with _ | path
    · rw [hpiece] at hhead
      cases hhead
      rw [List.filterMap_cons_none hpiece]
      exact ⟨rfl, hrest⟩
    · simp only [hpiece] at hhead
      rw [List.filterMap_cons_some hpiece, List.forall_mem_cons]
      rcases hpath : c.resolveIn path with e | value | _
      · rw [hpath] at hhead
        cases hhead
      · rw [hpath] at hhead
        cases hhead
      · rw [hpath] at hhead
        cases hhead
        exact ⟨rfl, rfl, hrest⟩

/-- Passes go on until none is left, or what is left has to wait. -/
theorem Strict.rootedIn_of_roundsIn (hc : c.Strict roots) {rounds : Nat} {text next : List Char}
    (h : c.roundsIn rounds text = .ok next) :
    ∀ path ∈ (pieces next).filterMap Piece.path?, RootedIn roots path := by
  induction rounds generalizing text with
  | zero =>
    simp only [roundsIn, hc.deferred_eq, Bool.or_false, decide_eq_true_eq] at h
    split at h
    · rename_i hnone
      cases h
      rw [hnone]
      exact fun path hpath => absurd hpath List.not_mem_nil
    · cases h
  | succ rounds ih =>
    obtain ⟨⟨pass, replaced⟩, hpass, h⟩ := exists_of_bind_eq_ok h
    cases replaced with
    | true => exact ih h
    | false =>
      cases h
      obtain ⟨rfl, hwait⟩ := deferred_of_expandIn hpass
      rw [pieces_chars]
      exact fun path hpath => hc.rootedIn (hwait path hpath)

/-- A substitution in a strict context leaves placeholders to roots that are bound late only. -/
theorem Strict.leftTo_of_substituteIn (hc : c.Strict roots) {text out : String}
    (h : c.substituteIn text = .ok out) : LeftTo roots out := by
  rw [substituteIn] at h
  rcases hrounds : c.roundsIn maxRounds text.toList with e | next
  · rw [hrounds] at h
    cases h
  · rw [hrounds] at h
    cases h
    rw [LeftTo, placeholderPaths, String.toList_ofList]
    exact hc.rootedIn_of_roundsIn hrounds

/-! ## Strict contexts stay strict -/

theorem Strict.of_remembers {c' : Context} (hc : c.Strict roots) (h : c.Remembers c') :
    c'.Strict roots := by
  have halike := h.alike
  exact ⟨halike.deferred_eq.trans hc.deferred_eq,
    fun name hname => hc.late_sub name ((halike.late_iff name).1 hname)⟩

/-- No agent is bound late where nothing is deferred. -/
theorem Strict.enter (hc : c.Strict roots) (id : String) : (c.enter id).Strict roots := by
  refine ⟨(c.deferred_enter id).trans hc.deferred_eq, fun name hname => ?_⟩
  rw [mem_late_enter, hc.deferred_eq] at hname
  split at hname
  · exact absurd hname.1 Bool.false_ne_true
  · exact hc.late_sub name hname

theorem Strict.withAgent (hc : c.Strict roots) (agent : String) :
    (c.withAgent agent).Strict roots :=
  ⟨hc.deferred_eq, fun name hname => hc.late_sub name (mem_late_withAgent.1 hname).1⟩

theorem Strict.bindAll (hc : c.Strict []) (names : List String) :
    (c.bindAll names).Strict names := by
  obtain ⟨-, hdeferred, -⟩ := eq_of_late_only (c.exists_bindAll names)
  refine ⟨hdeferred.trans hc.deferred_eq, fun name hname => ?_⟩
  exact (mem_late_bindAll.1 hname).resolve_right fun hlate =>
    List.not_mem_nil (hc.late_sub name hlate)

theorem Strict.unbindAll {names : List String} (hc : c.Strict names) :
    (c.unbindAll names).Strict [] := by
  obtain ⟨-, hdeferred, -⟩ := eq_of_late_only (c.exists_unbindAll names)
  refine ⟨hdeferred.trans hc.deferred_eq, fun name hname => ?_⟩
  obtain ⟨hlate, hnames⟩ := mem_late_unbindAll.1 hname
  exact absurd (hc.late_sub name hlate) hnames

end Context

end WorkflowCompiler
