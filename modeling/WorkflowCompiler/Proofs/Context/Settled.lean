import WorkflowCompiler.Proofs.Attempts
import WorkflowCompiler.Proofs.Context.Leftovers

/-!
# Texts that are settled

A text is settled in a session if substituting its placeholders gives the text back. What has to
wait once has to wait again, since nothing is kept of it (`resolve_of_deferred`). So a substitution
whose last pass replaced nothing leaves a settled text; and in a session that does not defer, every
substitution does, because all that it leaves is rooted in what is bound late
(`substitute_settles`).
-/

namespace WorkflowCompiler

open Attempt

/-! ## What has to wait -/

section Waiting

variable {s s' : Session} {path step : String}

/-- Nothing is kept of outputs that have to wait. -/
theorem context_eq_of_outputsOf_none (h : outputsOf step s = (.ok none, s')) :
    s'.context = s.context := by
  rw [outputsOf, bind_apply_of_ok (ask_apply _ s)] at h
  rcases hkept : s.context.outputs.get? step with _ | outputs
  · obtain ⟨asked, hask, hcontext⟩ := askFor_apply step s
    simp only [hkept, bind_apply_of_ok hask] at h
    -- what is reported as done is kept, and does not wait
    have hwait : ∀ e, (if s.context.deferred = true then pure none else fail e :
        Resolving (Option (Fields Json))) asked = (.ok none, s') → s'.context = s.context := by
      intro e h
      split at h
      · cases h
        exact hcontext
      · cases h
    rcases hlookup : s.context.lookup.bind (· step) with _ | ⟨_ | _ | _ | _, outputs⟩ <;>
      simp only [hlookup, bind_apply_of_ok (ask_apply _ asked), hcontext] at h
    case none.some.done => cases h
    all_goals exact hwait _ h
  · simp only [hkept] at h
    cases h

/-- Resolving what has to wait leaves the context as it is. -/
theorem resolve_of_deferred {c : Context} (hs : s.context = c)
    (h : c.resolveIn path = .ok .deferred) :
    ∃ s', resolve path s = (.ok .deferred, s') ∧ s'.context = c := by
  subst hs
  rw [Context.resolveIn] at h
  rw [resolve]
  cases hpath : Referent.ofPath path with
  | binding root fields =>
    simp only [hpath] at h
    exact ⟨s, congrArg (·, s) h, rfl⟩
  | output step fields =>
    obtain ⟨s', houtputs, -⟩ := outputsOf_apply step s
    rcases hin : s.context.outputsIn step with e | _ | outputs
    · simp only [hpath, hin] at h
      cases h
    · rw [hin] at houtputs
      exact ⟨s', bind_apply_of_ok houtputs _, context_eq_of_outputsOf_none houtputs⟩
    · -- outputs that are known are a value, or have none
      simp only [hpath, hin] at h
      exact absurd h (Context.fieldOfOutputs_ne_deferred path step fields outputs)

/-- What is rooted in what is bound late is not even asked for. -/
theorem resolve_of_rootedIn (h : RootedIn s.context.late path) :
    resolve path s = (.ok .deferred, s) := by
  obtain ⟨root, fields, hpath, hlate⟩ := h
  rw [resolve, hpath]
  simp only [resolveBinding, if_pos hlate]

end Waiting

/-! ## Passes that replace nothing -/

section Passes

variable {s : Session} {write : Json → String} {J : Session → Prop}

/-- A pass over placeholders that all have to wait gives the text back. What resolving one of them
leaves may be anything from which the others have to wait as well. -/
theorem expandPieces_of_deferred {ps : List Piece}
    (h : ∀ s, J s → ∀ path ∈ ps.filterMap Piece.path?,
      ∃ s', resolve path s = (.ok .deferred, s') ∧ J s') (hs : J s) :
    ∃ s', expandPieces write ps s = (.ok (ps.flatMap Piece.chars, false), s') ∧ J s' := by
  induction ps generalizing s with
  | nil => exact ⟨s, rfl, hs⟩
  | cons piece rest ih =>
    obtain ⟨s', hhead, hs'⟩ :
        ∃ s', expandPiece write piece s = (.ok (piece.chars, false), s') ∧ J s' := by
      rcases hpiece : piece.path? with _ | path
      · refine ⟨s, ?_, hs⟩
        simp only [expandPiece, hpiece]
        rfl
      · rw [List.filterMap_cons_some hpiece] at h
        obtain ⟨s', hresolve, hs'⟩ := h s hs path List.mem_cons_self
        refine ⟨s', ?_, hs'⟩
        simp only [expandPiece, hpiece, bind_apply_of_ok hresolve]
        rfl
    have hrest : ∀ s, J s → ∀ path ∈ rest.filterMap Piece.path?,
        ∃ s', resolve path s = (.ok .deferred, s') ∧ J s' := fun s hs path hpath =>
      h s hs path (List.filterMap_subset _ (List.subset_cons_self piece rest) hpath)
    obtain ⟨s'', htail, hs''⟩ := ih hrest hs'
    refine ⟨s'', ?_, hs''⟩
    rw [expandPieces, bind_apply_of_ok hhead]
    simp only [bind_apply_of_ok htail]
    rfl

/-- A substitution of placeholders that all have to wait gives the text back. -/
theorem substitute_of_deferred {text : String}
    (h : ∀ s, J s → ∀ path ∈ placeholderPaths text,
      ∃ s', resolve path s = (.ok .deferred, s') ∧ J s') (hs : J s) :
    ∃ s', substitute text s = (.ok text, s') ∧ J s' := by
  obtain ⟨s', hpass, hs'⟩ := expandPieces_of_deferred h hs
  refine ⟨s', ?_, hs'⟩
  have hfirst : substitutePass Json.text text.toList s = (.ok (text.toList, false), s') := by
    rw [substitutePass, hpass, pieces_chars]
  rw [substitute_eq, maxRounds, substituteRounds]
  simp [bind_apply, hfirst]

/-- A text is settled where its placeholders are left to roots that are bound late. -/
theorem substitute_of_leftTo {text : String} (h : LeftTo s.context.late text) :
    substitute text s = (.ok text, s) := by
  have hwait : ∀ s', s' = s → ∀ path ∈ placeholderPaths text,
      ∃ s'', resolve path s' = (.ok .deferred, s'') ∧ s'' = s := by
    rintro _ rfl path hpath
    exact ⟨_, resolve_of_rootedIn (h path hpath), rfl⟩
  obtain ⟨_, hsubstitute, rfl⟩ := substitute_of_deferred hwait rfl
  exact hsubstitute

/-- A pass that replaces nothing gives the text back and leaves the context as it is, and every
placeholder of the text has to wait. -/
theorem substitutePass_eq_false {text next : List Char} {s' : Session}
    (h : substitutePass write text s = (.ok (next, false), s')) :
    next = text ∧ s'.context = s.context ∧
      ∀ path ∈ (pieces text).filterMap Piece.path?, s.context.resolveIn path = .ok .deferred := by
  obtain ⟨_, hexpand, -⟩ := reads_expandPieces write (pieces text) s
  have hresult := congrArg Prod.fst (hexpand.symm.trans h)
  obtain ⟨hnext, hdeferred⟩ := Context.deferred_of_expandIn hresult
  have hwait : ∀ s'', s''.context = s.context → ∀ path ∈ (pieces text).filterMap Piece.path?,
      ∃ s₁, resolve path s'' = (.ok .deferred, s₁) ∧ s₁.context = s.context :=
    fun _ hs path hpath => resolve_of_deferred hs (hdeferred path hpath)
  obtain ⟨s'', hpass, hcontext⟩ := expandPieces_of_deferred hwait rfl
  rw [substitutePass, hpass] at h
  cases h
  exact ⟨pieces_chars text, hcontext, hdeferred⟩

end Passes

/-! ## Substitutions that settle -/

/-- One of so many passes over the text replaces nothing, and none before it fails. -/
def settles : Nat → List Char → Session → Bool
  | 0, _, _ => false
  | rounds + 1, text, s =>
    match substitutePass Json.text text s with
    | (.ok (next, true), s') => settles rounds next s'
    | (.ok (_, false), _) => true
    | (.error _, _) => false

/-- Passes that settle end with a text whose placeholders all have to wait. -/
theorem exists_substituteRounds_of_settles {rounds : Nat} {text : List Char} {s : Session}
    (h : settles rounds text s = true) :
    ∃ next s', substituteRounds rounds text s = (.ok next, s') ∧
      ∀ path ∈ (pieces next).filterMap Piece.path?, s'.context.resolveIn path = .ok .deferred := by
  induction rounds generalizing text s with
  | zero => cases h
  | succ rounds ih =>
    rw [settles] at h
    rcases hpass : substitutePass Json.text text s with ⟨e | ⟨next, _ | _⟩, s'⟩
    · rw [hpass] at h
      cases h
    · obtain ⟨rfl, hcontext, hwait⟩ := substitutePass_eq_false hpass
      refine ⟨next, s', ?_, hcontext ▸ hwait⟩
      rw [substituteRounds, bind_apply_of_ok hpass]
      rfl
    · rw [hpass] at h
      obtain ⟨last, s'', hrounds, hwait⟩ := ih h
      refine ⟨last, s'', ?_, hwait⟩
      rw [substituteRounds, bind_apply_of_ok hpass]
      exact hrounds

/-- A substitution that settles gives a text that is given back when it is substituted again. -/
theorem exists_substitute_of_settles {text : String} {s : Session}
    (h : settles maxRounds text.toList s = true) : ∃ t s', substitute text s = (.ok t, s') ∧
      ∃ s'', substitute t s' = (.ok t, s'') ∧ s''.context = s'.context := by
  obtain ⟨next, s', hrounds, hwait⟩ := exists_substituteRounds_of_settles h
  refine ⟨String.ofList next, s', ?_, ?_⟩
  · rw [substitute_eq, bind_apply_of_ok hrounds]
    rfl
  · refine substitute_of_deferred (J := fun s'' => s''.context = s'.context)
      (fun s'' hs path hpath => ?_) rfl
    rw [placeholderPaths, String.toList_ofList] at hpath
    exact resolve_of_deferred hs (hwait path hpath)

/-- Without deferral, whatever a substitution leaves is rooted in what is bound late, and a second
substitution gives it back, asks for nothing and changes nothing. With deferral, a second
substitution gives back what the first one ended with for want of anything to replace, and leaves
the context as it is. -/
theorem substitute_settles (text : String) (s : Session) :
    (s.context.deferred = false → ∀ t s', substitute text s = (.ok t, s') →
      (∀ p ∈ scan t, RootedIn s.context.late p.path ∧ p.isOutputReference = false) ∧
      (s.context.late = [] → scan t = []) ∧ substitute t s' = (.ok t, s')) ∧
    (s.context.deferred = true → settles maxRounds text.toList s = true →
      ∃ t s', substitute text s = (.ok t, s') ∧
        ∃ s'', substitute t s' = (.ok t, s'') ∧ s''.context = s'.context) := by
  refine ⟨fun hstrict t s' h => ?_, fun _ => exists_substitute_of_settles⟩
  obtain ⟨_, hreads, hremembers⟩ := reads_substitute text s
  rw [h, Prod.mk.injEq] at hreads
  obtain ⟨hresult, rfl⟩ := hreads
  have hcontext : s.context.Strict s.context.late := ⟨hstrict, fun _ => id⟩
  have hleft : LeftTo s.context.late t := hcontext.leftTo_of_substituteIn hresult.symm
  have hrooted : ∀ p ∈ scan t, RootedIn s.context.late p.path := fun p hp =>
    hleft p.path (scan_map_path t ▸ List.mem_map_of_mem hp)
  refine ⟨fun p hp => ⟨hrooted p hp, (hrooted p hp).isOutputReference_eq_false⟩, fun hnone => ?_,
    substitute_of_leftTo ?_⟩
  · rw [List.eq_nil_iff_forall_not_mem]
    intro p hp
    obtain ⟨root, fields, -, hroot⟩ := hrooted p hp
    rw [hnone] at hroot
    exact List.not_mem_nil hroot
  · have hlate : s'.context.late = s.context.late := by rw [hremembers.eq_outputs]
    rw [hlate]
    exact hleft

/-- A session in which a variable brings in a root that is bound late. -/
def itemSession : Session where
  context :=
    { vars := [("greeting", .str "Hello \x7b\x7b item.name \x7d\x7d"), ("mark", .str "!")]
      late := ["item"] }

/-- A session that defers, with a variable that brings in outputs that are not known. -/
def deferringSession : Session where
  context :=
    { vars := [("report", .str "see \x7b\x7bbuild.outputs.path\x7d\x7d")]
      deferred := true
      lookup := some fun _ => none }

/-- What is bound late is left in the greeting, and the outputs in the report; both are settled. -/
theorem itemSession_settles :
    (∃ s', substitute "\x7b\x7bgreeting\x7d\x7d\x7b\x7bmark\x7d\x7d" itemSession =
        (.ok "Hello \x7b\x7b item.name \x7d\x7d!", s') ∧
      substitute "Hello \x7b\x7b item.name \x7d\x7d!" s' =
        (.ok "Hello \x7b\x7b item.name \x7d\x7d!", s')) ∧
    ∃ t s', substitute "\x7b\x7breport\x7d\x7d" deferringSession = (.ok t, s') ∧
      ∃ s'', substitute t s' = (.ok t, s'') ∧ s''.context = s'.context := by
  refine ⟨?_, (substitute_settles _ deferringSession).2 rfl (by decide +kernel)⟩
  have hfirst := eq_ok_of_toOption_eq_some
    (show (substitute "\x7b\x7bgreeting\x7d\x7d\x7b\x7bmark\x7d\x7d" itemSession).1.toOption =
      some "Hello \x7b\x7b item.name \x7d\x7d!" by decide +kernel)
  obtain ⟨s', hsubstitute, -⟩ :=
    reads_substitute "\x7b\x7bgreeting\x7d\x7d\x7b\x7bmark\x7d\x7d" itemSession
  rw [hsubstitute] at hfirst
  have hok := hsubstitute.trans (congrArg (·, s') hfirst)
  exact ⟨s', hok, ((substitute_settles _ itemSession).1 rfl _ _ hok).2.2⟩

end WorkflowCompiler
