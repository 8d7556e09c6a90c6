import Mathlib.Data.List.Forall2
import WorkflowCompiler.Attempt

/-!
# How computations end

What a composed computation ends with comes from what its parts end with, whatever states they
run in.

* `Yields` — there is a state from which the computation ends with the result;
* `YieldsFrom` — there is one of a certain kind;
* `Preserves` — started in a state of a certain kind, it leaves one, however it ends;
* `Fails` — there is a state from which it ends with the error;
* `Avoids` — from no state does it end with one of certain errors.
-/

namespace WorkflowCompiler.Attempt

variable {σ ε ε' α β : Type}

/-- From some state, the computation ends with the result. -/
def Yields (x : Attempt σ ε α) (a : α) : Prop := ∃ s s', x s = (.ok a, s')

/-- From some state, the computation ends with the error. -/
def Fails (x : Attempt σ ε α) (e : ε) : Prop := ∃ s s', x s = (.error e, s')

/-- No error with which the computation ends is one of these. -/
def Avoids (x : Attempt σ ε α) (bad : ε → Prop) : Prop := ∀ e, x.Fails e → ¬ bad e

/-! ## Results -/

theorem eq_ok_of_toOption_eq_some {r : Except ε α} {a : α} (h : r.toOption = some a) :
    r = .ok a := by
  cases r with
  | error e => cases h
  | ok b =>
    cases h
    rfl

theorem exists_eq_ok_of_isSome {r : Except ε α} (h : r.toOption.isSome = true) :
    ∃ a, r = .ok a := by
  obtain ⟨a, ha⟩ := Option.isSome_iff_exists.1 h
  exact ⟨a, eq_ok_of_toOption_eq_some ha⟩

/-- The error, if there is one. -/
def error? : Except ε α → Option ε
  | .error e => some e
  | .ok _ => none

theorem eq_error_of_error?_eq_some {r : Except ε α} {e : ε} (h : error? r = some e) :
    r = .error e := by
  cases r with
  | error e' =>
    cases h
    rfl
  | ok a => cases h

theorem yields_of_fst_eq_ok {x : Attempt σ ε α} {s : σ} {a : α} (h : (x s).1 = .ok a) :
    x.Yields a :=
  ⟨s, (x s).2, Prod.ext h rfl⟩

theorem Yields.eq_of_pure {a b : α} (h : (pure a : Attempt σ ε α).Yields b) : b = a := by
  obtain ⟨s, s', h⟩ := h
  cases h
  rfl

theorem Yields.eq_of_ofExcept {r : Except ε α} {a : α}
    (h : (ofExcept r : Attempt σ ε α).Yields a) : r = .ok a := by
  obtain ⟨s, s', h⟩ := h
  exact congrArg Prod.fst h

/-- A failed computation has no result. -/
theorem not_yields_fail {e : ε} {a : α} : ¬ (fail e : Attempt σ ε α).Yields a := by
  rintro ⟨s, s', h⟩
  cases h

/-- Both parts of a sequence that has a result have one. -/
theorem Yields.of_bind {x : Attempt σ ε α} {f : α → Attempt σ ε β} {b : β}
    (h : (x >>= f).Yields b) : ∃ a, x.Yields a ∧ (f a).Yields b := by
  obtain ⟨s, s'', h⟩ := h
  obtain ⟨a, s', hx, hf⟩ := bind_eq_ok h
  exact ⟨a, ⟨s, s', hx⟩, s', s'', hf⟩

/-- If there is one possible result, there is one after something is made of it. -/
theorem Yields.eq_of_map {x : Attempt σ ε α} {f : α → β} {a : α} {b : β}
    (h : (x >>= fun a => pure (f a)).Yields b) (hx : ∀ a', x.Yields a' → a' = a) : b = f a := by
  obtain ⟨a', ha, h⟩ := h.of_bind
  rw [h.eq_of_pure, hx a' ha]

/-- What is done at the end does not matter to the result. -/
theorem Yields.of_ensuring {x : Attempt σ ε α} {f : σ → σ} {a : α}
    (h : (ensuring x f).Yields a) : x.Yields a := by
  obtain ⟨s, s', h⟩ := h
  rw [ensuring_apply, Prod.mk.injEq] at h
  exact ⟨s, _, Prod.ext h.1 rfl⟩

/-- The results for the members of a list are results for each of them. -/
theorem Yields.of_each {f : α → Attempt σ ε β} {l : List α} {bs : List β}
    (h : (each f l).Yields bs) : List.Forall₂ (fun a b => (f a).Yields b) l bs := by
  induction l generalizing bs with
  | nil =>
    cases h.eq_of_pure
    exact .nil
  | cons a l ih =>
    rw [each_cons] at h
    obtain ⟨b, hb, h⟩ := h.of_bind
    obtain ⟨rest, hrest, h⟩ := h.of_bind
    cases h.eq_of_pure
    exact .cons hb (ih hrest)

/-- If each member of a list has one possible result, so has the list. -/
theorem Yields.eq_map {f : α → Attempt σ ε β} {g : α → β} {l : List α} {bs : List β}
    (h : (each f l).Yields bs) (hg : ∀ a ∈ l, ∀ b, (f a).Yields b → b = g a) : bs = l.map g := by
  induction l generalizing bs with
  | nil => exact h.eq_of_pure
  | cons a l ih =>
    rw [List.forall_mem_cons] at hg
    rw [each_cons] at h
    obtain ⟨b, hb, h⟩ := h.of_bind
    obtain ⟨rest, hrest, h⟩ := h.of_bind
    rw [h.eq_of_pure, hg.1 b hb, ih hrest hg.2, List.map_cons]

/-- If each member of a list has a result whatever the state, so has the list. -/
theorem each_eq_pure {f : α → Attempt σ ε β} {g : α → β} {l : List α}
    (h : ∀ a ∈ l, f a = pure (g a)) : each f l = pure (l.map g) := by
  induction l with
  | nil => rfl
  | cons a l ih =>
    rw [List.forall_mem_cons] at h
    rw [each_cons, h.1, ih h.2]
    rfl

/-! ## Results from states of a kind -/

/-- From some state of the kind, the computation ends with the result. -/
def YieldsFrom (I : σ → Prop) (x : Attempt σ ε α) (a : α) : Prop := ∃ s s', I s ∧ x s = (.ok a, s')

/-- However the computation ends, it leaves a state of the kind if it was started in one. -/
def Preserves (I : σ → Prop) (x : Attempt σ ε α) : Prop := ∀ s, I s → I (x s).2

section YieldsFrom

variable {I : σ → Prop}

theorem preserves_ofExcept (r : Except ε α) :
    (ofExcept r : Attempt σ ε α).Preserves I := fun _ hs => hs

theorem Preserves.bind {x : Attempt σ ε α} {f : α → Attempt σ ε β} (hx : x.Preserves I)
    (hf : ∀ a, (f a).Preserves I) : (x >>= f).Preserves I := by
  intro s hs
  have hfirst := hx s hs
  rcases hresult : x s with ⟨e | a, s'⟩ <;> rw [hresult] at hfirst
  · rw [bind_apply_of_error hresult]
    exact hfirst
  · rw [bind_apply_of_ok hresult]
    exact hf a s' hfirst

theorem Preserves.each {f : α → Attempt σ ε β} {l : List α} (h : ∀ a ∈ l, (f a).Preserves I) :
    (each f l).Preserves I := by
  induction l with
  | nil => exact fun s hs => hs
  | cons a l ih =>
    rw [List.forall_mem_cons] at h
    rw [each_cons]
    exact h.1.bind fun _ => (ih h.2).bind fun _ _ hs => hs

theorem YieldsFrom.yields {x : Attempt σ ε α} {a : α} (h : x.YieldsFrom I a) : x.Yields a := by
  obtain ⟨s, s', -, h⟩ := h
  exact ⟨s, s', h⟩

theorem yieldsFrom_of_fst_eq_ok {x : Attempt σ ε α} {s : σ} {a : α} (hs : I s)
    (h : (x s).1 = .ok a) : x.YieldsFrom I a :=
  ⟨s, (x s).2, hs, Prod.ext h rfl⟩

/-- The second part of a sequence is run in a state of the kind, if the first part leaves one. -/
theorem YieldsFrom.of_bind {x : Attempt σ ε α} {f : α → Attempt σ ε β} {b : β}
    (h : (x >>= f).YieldsFrom I b) (hx : x.Preserves I) :
    ∃ a, x.YieldsFrom I a ∧ (f a).YieldsFrom I b := by
  obtain ⟨s, s'', hs, h⟩ := h
  obtain ⟨a, s', ha, h⟩ := bind_eq_ok h
  have hs' := hx s hs
  rw [ha] at hs'
  exact ⟨a, ⟨s, s', hs, ha⟩, s', s'', hs', h⟩

theorem YieldsFrom.of_map {x : Attempt σ ε α} {f : α → β} {b : β}
    (h : (x >>= fun a => pure (f a)).YieldsFrom I b) : ∃ a, x.YieldsFrom I a ∧ b = f a := by
  obtain ⟨s, s'', hs, h⟩ := h
  obtain ⟨a, s', ha, h⟩ := bind_eq_ok h
  rw [pure_apply, Prod.mk.injEq, Except.ok.injEq] at h
  exact ⟨a, ⟨s, s', hs, ha⟩, h.1.symm⟩

theorem YieldsFrom.of_each {f : α → Attempt σ ε β} {l : List α} {bs : List β}
    (h : (each f l).YieldsFrom I bs) (hf : ∀ a ∈ l, (f a).Preserves I) :
    List.Forall₂ (fun a b => (f a).YieldsFrom I b) l bs := by
  induction l generalizing bs with
  | nil =>
    cases h.yields.eq_of_pure
    exact .nil
  | cons a l ih =>
    rw [List.forall_mem_cons] at hf
    rw [each_cons] at h
    obtain ⟨b, hb, h⟩ := h.of_bind hf.1
    obtain ⟨rest, hrest, rfl⟩ := h.of_map
    exact .cons hb (ih hrest hf.2)

end YieldsFrom

/-! ## Errors -/

theorem fails_of_fst_eq_error {x : Attempt σ ε α} {s : σ} {e : ε} (h : (x s).1 = .error e) :
    x.Fails e :=
  ⟨s, (x s).2, Prod.ext h rfl⟩

variable {bad : ε → Prop}

theorem avoids_pure (a : α) : (pure a : Attempt σ ε α).Avoids bad := by
  rintro e ⟨s, s', h⟩
  cases h

theorem avoids_ask (f : σ → α) : (ask f : Attempt σ ε α).Avoids bad := by
  rintro e ⟨s, s', h⟩
  cases h

theorem avoids_change (f : σ → σ) : (change f : Attempt σ ε Unit).Avoids bad := by
  rintro e ⟨s, s', h⟩
  cases h

theorem avoids_fail {e : ε} (h : ¬ bad e) : (fail e : Attempt σ ε α).Avoids bad := by
  rintro e' ⟨s, s', he⟩
  cases he
  exact h

theorem avoids_ofExcept {r : Except ε α} (h : ∀ e, r = .error e → ¬ bad e) :
    (ofExcept r : Attempt σ ε α).Avoids bad := by
  rintro e ⟨s, s', he⟩
  exact h e (congrArg Prod.fst he)

/-- Avoiding some errors is avoiding fewer of them. -/
theorem Avoids.mono {x : Attempt σ ε α} {bad' : ε → Prop} (hx : x.Avoids bad')
    (h : ∀ e, bad e → bad' e) : x.Avoids bad :=
  fun e he hbad => hx e he (h e hbad)

/-- An error of a sequence is one of its parts, and the second part has one only after a
result of the first. -/
theorem Avoids.bind {x : Attempt σ ε α} {f : α → Attempt σ ε β} (hx : x.Avoids bad)
    (hf : ∀ a, x.Yields a → (f a).Avoids bad) : (x >>= f).Avoids bad := by
  rintro e ⟨s, s'', h⟩
  rcases bind_eq_error h with h | ⟨a, s', ha, h⟩
  · exact hx e ⟨s, s'', h⟩
  · exact hf a ⟨s, s', ha⟩ e ⟨s', s'', h⟩

/-- An error in other words is avoided if no error is put into such words. -/
theorem avoids_mapError {f : ε' → ε} {x : Attempt σ ε' α} (h : ∀ e, ¬ bad (f e)) :
    (mapError f x).Avoids bad := by
  rintro e ⟨s, s', he⟩
  rw [mapError_apply] at he
  rcases hx : (x s).1 with e' | a
  · rw [hx] at he
    cases he
    exact h e'
  · rw [hx] at he
    cases he

theorem Avoids.ensuring {x : Attempt σ ε α} (hx : x.Avoids bad) (f : σ → σ) :
    (ensuring x f).Avoids bad := by
  rintro e ⟨s, s', he⟩
  rw [ensuring_apply] at he
  exact hx e (fails_of_fst_eq_error (congrArg Prod.fst he))

theorem avoids_each {f : α → Attempt σ ε β} {l : List α} (h : ∀ a ∈ l, (f a).Avoids bad) :
    (each f l).Avoids bad := by
  induction l with
  | nil => exact avoids_pure _
  | cons a l ih =>
    rw [each_cons]
    refine (h a List.mem_cons_self).bind fun b _ => Avoids.bind (ih ?_) fun bs _ => avoids_pure _
    intro a' ha'
    exact h a' (List.mem_cons_of_mem _ ha')

theorem avoids_optional {f : α → Attempt σ ε β} (h : ∀ a, (f a).Avoids bad) (value : Option α) :
    (optional f value).Avoids bad := by
  cases value with
  | none => exact avoids_pure _
  | some a => exact (h a).bind fun b _ => avoids_pure _

end WorkflowCompiler.Attempt
