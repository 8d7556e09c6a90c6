import WorkflowCompiler.Proofs.Context.Changes
import WorkflowCompiler.Proofs.Context.Provided

/-!
# What the values of a context are written as

A property of texts *holds* in a context if everything that a placeholder can lead to is written
as a text with the property: what is bound, the outputs that are known, and the present moment
(`Context.Holds`). Entering a step and binding its agent put in a few texts of their own, and
binding names late puts in nothing.

If all names are bound, now or late, and the values are fine, the context serves the names
(`Context.serves_of_bound`).
-/

namespace WorkflowCompiler

/-- The value, and every value inside of it, is written as a text with the property. -/
def Json.Holds (P : String → Prop) (value : Json) : Prop :=
  ∀ path fields inner, walk path value fields = .ok inner → P inner.text

/-- Whatever a path may lead to is written as a text with the property. -/
structure Context.Holds (P : String → Prop) (c : Context) : Prop where
  /-- variables and builtins -/
  bound : ∀ root value, c.binding? root = some value → value.Holds P
  /-- outputs of steps -/
  known : ∀ step outputs, c.known? step = some outputs → (Json.obj outputs).Holds P
  /-- the present moment -/
  moment : ∀ name text, clockText? c.clock name = some text → P text

section Holds

variable {P Q : String → Prop} {c c' : Context}

/-- A string has nothing inside. -/
theorem holds_str {text : String} (h : P text) : (Json.str text).Holds P := by
  intro path fields inner hwalk
  cases fields with
  | nil =>
    cases hwalk
    exact h
  | cons field rest => cases hwalk

/-- What a walk finds inside of a value is written as a text with the property. -/
theorem Json.Holds.of_map_walk {path : String} {value inner : Json} {fields : List String}
    (h : value.Holds P)
    (hwalk : (walk path value fields).map .value = .ok (Resolution.value inner)) :
    P inner.text := by
  rcases hfound : walk path value fields with e | found
  · rw [hfound] at hwalk
    cases hwalk
  · rw [hfound] at hwalk
    cases hwalk
    exact h path fields inner hfound

theorem Json.Holds.of_fieldOfOutputs {path step : String} {fields : List String}
    {outputs : Fields Json} {value : Json} (h : (Json.obj outputs).Holds P)
    (hvalue : Context.fieldOfOutputs path step fields outputs = .ok (.value value)) :
    P value.text := by
  cases fields with
  | nil =>
    cases hvalue
    exact h path [] _ rfl
  | cons field deeper =>
    rw [Context.fieldOfOutputs] at hvalue
    rcases hfield : outputs.get? field with _ | inner
    · rw [hfield] at hvalue
      cases hvalue
    · simp only [hfield] at hvalue
      have hinner : inner.Holds P := by
        intro path fields found hfound
        refine h path (field :: fields) found ?_
        rw [walk, Json.field?, hfield]
        exact hfound
      exact hinner.of_map_walk hvalue

namespace Context.Holds

theorem mono (h : c.Holds P) (himp : ∀ text, P text → Q text) : c.Holds Q where
  bound := fun root value hvalue path fields inner hwalk =>
    himp _ (h.bound root value hvalue path fields inner hwalk)
  known := fun step outputs houtputs path fields inner hwalk =>
    himp _ (h.known step outputs houtputs path fields inner hwalk)
  moment := fun name text htext => himp _ (h.moment name text htext)

/-- What a path resolves to is written as a text with the property. -/
theorem of_resolveIn (h : c.Holds P) {path : String} {value : Json}
    (hvalue : c.resolveIn path = .ok (.value value)) : P value.text := by
  rw [resolveIn] at hvalue
  cases hpath : Referent.ofPath path with
  | output step fields =>
    simp only [hpath, outputsIn] at hvalue
    rcases hknown : c.known? step with _ | outputs
    · rw [hknown] at hvalue
      cases hdeferred : c.deferred <;> simp [hdeferred] at hvalue
    · simp only [hknown] at hvalue
      exact (h.known step outputs hknown).of_fieldOfOutputs hvalue
  | binding root fields =>
    simp only [hpath, resolveBinding] at hvalue
    by_cases hlate : root ∈ c.late
    · rw [if_pos hlate] at hvalue
      cases hvalue
    · rw [if_neg hlate] at hvalue
      rcases hbound : c.binding? root with _ | outer
      · simp only [hbound] at hvalue
        split at hvalue
        · rename_i text htext
          cases hvalue
          exact h.moment root text htext
        · cases hvalue
      · simp only [hbound] at hvalue
        exact (h.bound root outer hbound).of_map_walk hvalue

/-- The builtins may change to texts with the property. -/
theorem of_builtins (h : c.Holds P) (hground : c.SameGround c')
    (hbuiltins : ∀ name value, c'.builtins.get? name = some value →
      c.builtins.get? name = some value ∨ ∃ text, P text ∧ value = .str text) : c'.Holds P where
  bound := by
    intro root value hvalue
    rw [binding?, hground.vars_eq] at hvalue
    rcases hvar : c.vars.get? root with _ | other
    · rw [hvar] at hvalue
      rcases hbuiltins root value hvalue with hsame | ⟨text, htext, rfl⟩
      · refine h.bound root value ?_
        rw [binding?, hvar]
        exact hsame
      · exact holds_str htext
    · refine h.bound root value ?_
      rw [hvar] at hvalue
      rw [binding?, hvar]
      exact hvalue
  known := fun step outputs houtputs =>
    h.known step outputs ((hground.known_eq step).symm.trans houtputs)
  moment := fun name text htext => h.moment name text (hground.clock_eq ▸ htext)

theorem of_alike (h : c.Holds P) (halike : c.Alike c') : c'.Holds P :=
  h.of_builtins halike.toSameGround fun name _ hvalue =>
    .inl ((halike.builtins_eq name).symm.trans hvalue)

theorem of_late_only (h : c.Holds P) (hlate : ∃ late, c' = { c with late }) : c'.Holds P := by
  obtain ⟨hground, -, hbuiltins⟩ := eq_of_late_only hlate
  exact h.of_builtins hground fun name value hvalue => .inl (hbuiltins ▸ hvalue)

theorem enter (h : c.Holds P) {id : String} (hid : P id) : (c.enter id).Holds P := by
  refine h.of_builtins (c.sameGround_enter id) fun name value hvalue => ?_
  rw [builtins_enter] at hvalue
  split at hvalue
  · cases hvalue
  · split at hvalue
    · exact .inr ⟨id, hid, (Option.some.inj hvalue).symm⟩
    · exact .inl hvalue

theorem withAgent (h : c.Holds P) {agent : String} (hagent : P agent) :
    (c.withAgent agent).Holds P := by
  refine h.of_builtins (c.sameGround_withAgent agent) fun name value hvalue => ?_
  rw [builtins_withAgent] at hvalue
  split at hvalue
  · exact .inr ⟨agent, hagent, (Option.some.inj hvalue).symm⟩
  · exact .inl hvalue

end Context.Holds

/-- The clock has three texts. -/
theorem of_clockText? {clock : Int} (hstamp : P (Calendar.timestampText clock))
    (hdate : P (Calendar.dateText clock)) (htime : P (Calendar.timeText clock)) (name text : String)
    (h : clockText? clock name = some text) : P text := by
  rw [clockText?] at h
  split at h
  · cases h
    exact hstamp
  · split at h
    · cases h
      exact hdate
    · split at h
      · cases h
        exact htime
      · cases h

/-- A context without outputs whose variables and builtins are strings with the property. -/
theorem Context.holds_of_strings
    (hstrings : ∀ entry ∈ c.vars ++ c.builtins, ∃ text, P text ∧ entry.2 = .str text)
    (houtputs : c.outputs = []) (hlookup : c.lookup = none)
    (hmoment : ∀ name text, clockText? c.clock name = some text → P text) : c.Holds P where
  bound := by
    intro root value hvalue
    have hentry : (root, value) ∈ c.vars ++ c.builtins := by
      rw [binding?] at hvalue
      rw [List.mem_append]
      rcases hvar : c.vars.get? root with _ | other
      · rw [hvar] at hvalue
        exact .inr (Fields.mem_of_get?_eq_some hvalue)
      · rw [hvar] at hvalue
        cases hvalue
        exact .inl (Fields.mem_of_get?_eq_some hvar)
    obtain ⟨text, htext, rfl⟩ := hstrings _ hentry
    exact holds_str htext
  known := by
    intro step outputs hknown
    rw [known?, houtputs, reported?, hlookup] at hknown
    cases hknown
  moment := hmoment

end Holds

/-! ## Contexts in which names are bound -/

namespace Context

variable {c : Context} {names : List String}

/-- A walk inside of a value finds a field or does not, but nothing is undefined. -/
theorem walk_ne_undefined (path : String) (value : Json) (fields : List String) (other : String) :
    walk path value fields ≠ .error (.undefined other) := by
  induction fields generalizing value with
  | nil => exact fun h => by cases h
  | cons field rest ih =>
    rw [walk]
    cases value.field? field with
    | none => exact fun h => by cases h
    | some inner => exact ih inner

theorem map_walk_ne_undefined (path : String) (value : Json) (fields : List String)
    (other : String) :
    (walk path value fields).map Resolution.value ≠ .error (.undefined other) := by
  have hwalk := walk_ne_undefined path value fields other
  rcases hfound : walk path value fields with e | inner
  · rw [hfound] at hwalk
    exact fun h => hwalk (by cases h; rfl)
  · exact fun h => by cases h

theorem whyUnknown_ne_undefined (step other : String) : c.whyUnknown step ≠ .undefined other := by
  rw [whyUnknown]
  split <;> exact fun h => by cases h

theorem fieldOfOutputs_ne_undefined (path step : String) (fields : List String)
    (outputs : Fields Json) (other : String) :
    fieldOfOutputs path step fields outputs ≠ .error (.undefined other) := by
  cases fields with
  | nil => exact fun h => by cases h
  | cons field deeper =>
    rw [fieldOfOutputs]
    cases outputs.get? field with
    | none => exact fun h => by cases h
    | some inner => exact map_walk_ne_undefined path inner deeper other

/-- A path that bound names provide for is not undefined. -/
theorem resolveIn_ne_undefined
    (hbound : ∀ root ∈ names, root ∈ c.late ∨ (c.binding? root).isSome = true) {path : String}
    (hpath : Provided names path) (other : String) :
    c.resolveIn path ≠ .error (.undefined other) := by
  rw [Provided] at hpath
  rw [resolveIn]
  cases hreferent : Referent.ofPath path with
  | output step fields =>
    simp only [outputsIn]
    cases c.known? step with
    | some outputs => exact fieldOfOutputs_ne_undefined path step fields outputs other
    | none =>
      cases c.deferred with
      | true => exact fun h => by cases h
      | false => exact fun h => whyUnknown_ne_undefined step other (Except.error.inj h)
  | binding root fields =>
    simp only [hreferent] at hpath
    simp only [resolveBinding]
    by_cases hlate : root ∈ c.late
    · rw [if_pos hlate]
      exact fun h => by cases h
    · rw [if_neg hlate]
      rcases hvalue : c.binding? root with _ | outer
      · rcases hpath with hroot | ⟨rfl, hclock⟩
        · have hsome := (hbound root hroot).resolve_left hlate
          rw [hvalue] at hsome
          cases hsome
        · have hmoment : ∃ text, clockText? c.clock root = some text := by
            simp only [clockNames, List.mem_cons, List.not_mem_nil, or_false] at hclock
            rcases hclock with rfl | rfl | rfl <;> exact ⟨_, rfl⟩
          obtain ⟨text, htext⟩ := hmoment
          simp only [htext]
          exact fun h => by cases h
      · exact map_walk_ne_undefined path outer fields other

/-- A context serves the names that are bound in it, now or late, if its values are fine. -/
theorem serves_of_bound
    (hbound : ∀ root ∈ names, root ∈ c.late ∨ (c.binding? root).isSome = true)
    (hvalues : c.Holds (Fine names)) : c.Serves names where
  defined := fun _ hpath => resolveIn_ne_undefined hbound hpath
  values := fun _ _ hvalue => hvalues.of_resolveIn hvalue

end Context

end WorkflowCompiler
