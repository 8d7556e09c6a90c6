import WorkflowCompiler.Proofs.Attempts

/-!
# What computations do to related states

Statements about a computation together with the states it runs in, and how they are put
together along a sequence.

* `Simulates R x y` — a result of `x` is a result of `y` as well, if `y` is started in a related
  state, and the states they reach are related again;
* `Matches R x y` — from related states, `x` and `y` end alike, be it with a result or an error, and
  the states they reach are related again;
* `Relates R S x y` — if from related states both `x` and `y` have results, these are related by
  `S`, and the states they reach are related again;
* `Secures I bad x J` — started in a state with the property `I`, `x` has a result and reaches a
  state for which `J` holds, or fails with none of the bad errors.
-/

namespace WorkflowCompiler.Attempt

variable {σ ε α β : Type}

/-- A result of the first computation is one of the second from every related state, and the
states that are reached are related. -/
def Simulates (R : σ → σ → Prop) (x y : Attempt σ ε α) : Prop :=
  ∀ s t, R s t → ∀ a s', x s = (.ok a, s') → ∃ t', y t = (.ok a, t') ∧ R s' t'

/-- From related states both computations end alike, however they end, and the states that are
reached are related. -/
def Matches (R : σ → σ → Prop) (x y : Attempt σ ε α) : Prop :=
  ∀ s t, R s t → (x s).1 = (y t).1 ∧ R (x s).2 (y t).2

/-- Whenever both computations have results from related states, these are related, and so are the
states that are reached. -/
def Relates (R : σ → σ → Prop) (S : α → β → Prop) (x : Attempt σ ε α) (y : Attempt σ ε β) : Prop :=
  ∀ s t, R s t → ∀ a s' b t', x s = (.ok a, s') → y t = (.ok b, t') → S a b ∧ R s' t'

/-- From a state with the first property, the second one is reached, or an error that is none of
the bad ones. -/
def Secures (I : σ → Prop) (bad : ε → Prop) (x : Attempt σ ε α) (J : α → σ → Prop) : Prop :=
  ∀ s, I s → (∀ a s', x s = (.ok a, s') → J a s') ∧ ∀ e s', x s = (.error e, s') → ¬ bad e

/-! ## Simulations -/

section Simulates

variable {R : σ → σ → Prop}

theorem simulates_pure (a : α) : Simulates R (pure a : Attempt σ ε α) (pure a) := by
  intro s t hR b s' h
  cases h
  exact ⟨t, rfl, hR⟩

theorem simulates_ofExcept (r : Except ε α) :
    Simulates R (ofExcept r : Attempt σ ε α) (ofExcept r) := by
  intro s t hR b s' h
  cases h
  exact ⟨t, rfl, hR⟩

theorem simulates_change {f g : σ → σ} (h : ∀ s t, R s t → R (f s) (g t)) :
    Simulates R (change f : Attempt σ ε Unit) (change g) := by
  intro s t hR b s' hs
  cases hs
  exact ⟨g t, rfl, h s t hR⟩

theorem Simulates.bind {x y : Attempt σ ε α} {f g : α → Attempt σ ε β} (hx : Simulates R x y)
    (hf : ∀ a, Simulates R (f a) (g a)) : Simulates R (x >>= f) (y >>= g) := by
  intro s t hR b s'' h
  obtain ⟨a, s', ha, h⟩ := bind_eq_ok h
  obtain ⟨t', hy, hR'⟩ := hx s t hR a s' ha
  obtain ⟨t'', hg, hR''⟩ := hf a s' t' hR' b s'' h
  exact ⟨t'', by rw [bind_apply_of_ok hy, hg], hR''⟩

theorem Simulates.ensuring {x y : Attempt σ ε α} (h : Simulates R x y) {f g : σ → σ}
    (hfg : ∀ s t, R s t → R (f s) (g t)) : Simulates R (ensuring x f) (ensuring y g) := by
  intro s t hR a s' hs
  rw [ensuring_apply] at hs
  rcases hx : x s with ⟨r, s''⟩
  rw [hx] at hs
  cases hs
  obtain ⟨t', hy, hR'⟩ := h s t hR a s'' hx
  exact ⟨g t', by rw [ensuring_apply, hy], hfg s'' t' hR'⟩

end Simulates

/-! ## Matching computations -/

section Matches

variable {R : σ → σ → Prop}

theorem matches_pure (a : α) : Matches R (pure a : Attempt σ ε α) (pure a) :=
  fun _ _ hR => ⟨rfl, hR⟩

theorem matches_ofExcept (r : Except ε α) :
    Matches R (ofExcept r : Attempt σ ε α) (ofExcept r) :=
  fun _ _ hR => ⟨rfl, hR⟩

theorem matches_change {f g : σ → σ} (h : ∀ s t, R s t → R (f s) (g t)) :
    Matches R (change f : Attempt σ ε Unit) (change g) :=
  fun s t hR => ⟨rfl, h s t hR⟩

theorem Matches.bind {x y : Attempt σ ε α} {f g : α → Attempt σ ε β} (hx : Matches R x y)
    (hf : ∀ a, Matches R (f a) (g a)) : Matches R (x >>= f) (y >>= g) := by
  intro s t hR
  have hfirst := hx s t hR
  rw [bind_apply, bind_apply]
  rcases hxs : x s with ⟨r, s'⟩
  rcases hyt : y t with ⟨r', t'⟩
  rw [hxs, hyt] at hfirst
  obtain ⟨rfl, hR'⟩ := hfirst
  cases r with
  | error e => exact ⟨rfl, hR'⟩
  | ok a => exact hf a s' t' hR'

theorem Matches.ensuring {x y : Attempt σ ε α} (h : Matches R x y) {f g : σ → σ}
    (hfg : ∀ s t, R s t → R (f s) (g t)) : Matches R (ensuring x f) (ensuring y g) := by
  intro s t hR
  obtain ⟨hresult, hR'⟩ := h s t hR
  rw [ensuring_apply, ensuring_apply]
  exact ⟨hresult, hfg _ _ hR'⟩

end Matches

/-! ## Related results -/

section Relates

variable {γ δ : Type} {R : σ → σ → Prop} {S : α → β → Prop} {T : γ → δ → Prop}

theorem relates_pure {a : α} {b : β} (h : S a b) :
    Relates R S (pure a : Attempt σ ε α) (pure b) := by
  intro s t hR a' s' b' t' hx hy
  cases hx
  cases hy
  exact ⟨h, hR⟩

/-- Nothing is asked of a computation that fails. -/
theorem relates_fail (e : ε) (y : Attempt σ ε β) : Relates R S (fail e : Attempt σ ε α) y := by
  intro s t _ a s' b t' hx
  cases hx

theorem relates_ofExcept {r : Except ε α} {r' : Except ε β}
    (h : ∀ a b, r = .ok a → r' = .ok b → S a b) : Relates R S (ofExcept r) (ofExcept r') := by
  intro s t hR a s' b t' hx hy
  cases hx
  cases hy
  exact ⟨h a b rfl rfl, hR⟩

theorem Relates.bind {x : Attempt σ ε α} {y : Attempt σ ε β} {f : α → Attempt σ ε γ}
    {g : β → Attempt σ ε δ} (hx : Relates R S x y) (hf : ∀ a b, S a b → Relates R T (f a) (g b)) :
    Relates R T (x >>= f) (y >>= g) := by
  intro s t hR c s'' d t'' hs ht
  obtain ⟨a, s', ha, hs⟩ := bind_eq_ok hs
  obtain ⟨b, t', hb, ht⟩ := bind_eq_ok ht
  obtain ⟨hS, hR'⟩ := hx s t hR a s' b t' ha hb
  exact hf a b hS s' t' hR' c s'' d t'' hs ht

/-- Related results are results of the two computations. -/
theorem Relates.yields {x : Attempt σ ε α} {y : Attempt σ ε β} (h : Relates R S x y) :
    Relates R (fun a b => S a b ∧ x.Yields a ∧ y.Yields b) x y := by
  intro s t hR a s' b t' hs ht
  obtain ⟨hS, hR'⟩ := h s t hR a s' b t' hs ht
  exact ⟨⟨hS, ⟨s, s', hs⟩, ⟨t, t', ht⟩⟩, hR'⟩

/-- After computations that end alike, it goes on from the same result. -/
theorem Matches.bind_relates {x y : Attempt σ ε α} {f : α → Attempt σ ε γ}
    {g : α → Attempt σ ε δ} (hx : Matches R x y) (hf : ∀ a, Relates R T (f a) (g a)) :
    Relates R T (x >>= f) (y >>= g) := by
  refine Relates.bind (S := Eq) ?_ fun a b hab => hab ▸ hf a
  intro s t hR a s' b t' hs ht
  obtain ⟨hresult, hR'⟩ := hx s t hR
  rw [hs, ht] at hresult hR'
  exact ⟨Except.ok.inj hresult, hR'⟩

theorem relates_each {f : γ → Attempt σ ε α} {g : γ → Attempt σ ε β} {l : List γ}
    (h : ∀ c ∈ l, Relates R S (f c) (g c)) :
    Relates R (List.Forall₂ S) (each f l) (each g l) := by
  induction l with
  | nil => exact relates_pure .nil
  | cons c l ih =>
    rw [List.forall_mem_cons] at h
    rw [each_cons, each_cons]
    exact h.1.bind fun a b hab => (ih h.2).bind fun as bs hall => relates_pure (.cons hab hall)

end Relates

/-! ## Lists -/

/-- Computations that end alike from all states of a kind, which they do not leave, have their
results one by one, whatever was computed before. -/
theorem each_eq_ok_iff {I : σ → Prop} {s₀ : σ} {f : α → Attempt σ ε β} {l : List α}
    (hkeeps : ∀ a ∈ l, ∀ s, I s → I (f a s).2)
    (halike : ∀ a ∈ l, ∀ s, I s → ∀ b, (f a s).1 = .ok b ↔ (f a s₀).1 = .ok b)
    {s : σ} (hs : I s) {bs : List β} :
    (each f l s).1 = .ok bs ↔ List.Forall₂ (fun a b => (f a s₀).1 = .ok b) l bs := by
  induction l generalizing s bs with
  | nil =>
    rw [each_nil, pure_apply, List.forall₂_nil_left_iff, Except.ok.injEq]
    exact eq_comm
  | cons a l ih =>
    rw [List.forall_mem_cons] at hkeeps halike
    rw [each_cons]
    constructor
    · intro h
      obtain ⟨b, s', hb, h⟩ := bind_eq_ok (Prod.ext h rfl :
        (f a >>= fun b => each f l >>= fun bs => pure (b :: bs)) s = (.ok bs, _))
      obtain ⟨bs', s'', hbs, h⟩ := bind_eq_ok h
      cases h
      have hs' : I s' := by
        have hleft := hkeeps.1 s hs
        rw [hb] at hleft
        exact hleft
      exact .cons ((halike.1 s hs b).1 (congrArg Prod.fst hb))
        ((ih hkeeps.2 halike.2 hs').1 (congrArg Prod.fst hbs))
    · intro h
      cases h with
      | cons hb hbs =>
        rename_i b bs
        have hfirst : f a s = (.ok b, (f a s).2) := Prod.ext ((halike.1 s hs b).2 hb) rfl
        have hrest : each f l (f a s).2 = (.ok bs, (each f l (f a s).2).2) :=
          Prod.ext ((ih hkeeps.2 halike.2 (hkeeps.1 s hs)).2 hbs) rfl
        rw [bind_apply_of_ok hfirst, bind_apply_of_ok hrest, pure_apply]

/-- What is done to the results does not matter to the states. -/
theorem each_of_map {γ : Type} {f : α → Attempt σ ε β} {g : α → β → γ} {l : List α} {s s' : σ}
    {cs : List γ} (h : each (fun a => f a >>= fun b => pure (g a b)) l s = (.ok cs, s')) :
    ∃ bs, each f l s = (.ok bs, s') := by
  induction l generalizing s cs with
  | nil =>
    cases h
    exact ⟨[], rfl⟩
  | cons a l ih =>
    rw [each_cons] at h
    obtain ⟨c, s₁, hfirst, h⟩ := bind_eq_ok h
    obtain ⟨b, s₂, hb, hfirst⟩ := bind_eq_ok hfirst
    cases hfirst
    obtain ⟨rest, s₃, hrest, h⟩ := bind_eq_ok h
    cases h
    obtain ⟨bs, hbs⟩ := ih hrest
    exact ⟨b :: bs, by rw [each_cons, bind_apply_of_ok hb, bind_apply_of_ok hbs, pure_apply]⟩

theorem each_append {f : α → Attempt σ ε β} {l m : List α} {s s' s'' : σ} {bs cs : List β}
    (hl : each f l s = (.ok bs, s')) (hm : each f m s' = (.ok cs, s'')) :
    each f (l ++ m) s = (.ok (bs ++ cs), s'') := by
  induction l generalizing s bs with
  | nil =>
    cases hl
    exact hm
  | cons a l ih =>
    rw [each_cons] at hl
    obtain ⟨b, s₁, hb, hl⟩ := bind_eq_ok hl
    obtain ⟨rest, s₂, hrest, hl⟩ := bind_eq_ok hl
    cases hl
    rw [List.cons_append, each_cons, bind_apply_of_ok hb, bind_apply_of_ok (ih hrest), pure_apply,
      List.cons_append]

/-! ## What is secured -/

section Secures

variable {I : σ → Prop} {bad : ε → Prop} {J : α → σ → Prop} {K : β → σ → Prop}

theorem secures_pure {a : α} (h : ∀ s, I s → J a s) :
    Secures I bad (pure a : Attempt σ ε α) J := by
  intro s hI
  constructor
  · intro b s' hs
    cases hs
    exact h s hI
  · intro e s' hs
    cases hs

theorem secures_ofExcept {r : Except ε α} (h : ∀ e, r = .error e → ¬ bad e)
    (hJ : ∀ a s, I s → J a s) : Secures I bad (ofExcept r : Attempt σ ε α) J := by
  intro s hI
  constructor
  · intro a s' hs
    cases hs
    exact hJ a s hI
  · intro e s' hs
    exact h e (congrArg Prod.fst hs)

theorem secures_change {f : σ → σ} {J : Unit → σ → Prop} (h : ∀ s, I s → J () (f s)) :
    Secures I bad (change f : Attempt σ ε Unit) J := by
  intro s hI
  constructor
  · intro a s' hs
    cases hs
    exact h s hI
  · intro e s' hs
    cases hs

theorem Secures.imp {x : Attempt σ ε α} (hx : Secures I bad x J) {J' : α → σ → Prop}
    (h : ∀ a s, J a s → J' a s) : Secures I bad x J' :=
  fun s hI => ⟨fun a s' hs => h a s' ((hx s hI).1 a s' hs), (hx s hI).2⟩

theorem Secures.bind {x : Attempt σ ε α} {f : α → Attempt σ ε β} (hx : Secures I bad x J)
    (hf : ∀ a, Secures (J a) bad (f a) K) : Secures I bad (x >>= f) K := by
  intro s hI
  constructor
  · intro b s'' h
    obtain ⟨a, s', ha, h⟩ := bind_eq_ok h
    exact (hf a s' ((hx s hI).1 a s' ha)).1 b s'' h
  · intro e s'' h
    rcases bind_eq_error h with h | ⟨a, s', ha, h⟩
    · exact (hx s hI).2 e s'' h
    · exact (hf a s' ((hx s hI).1 a s' ha)).2 e s'' h

theorem Secures.ensuring {x : Attempt σ ε α} (hx : Secures I bad x J) {f : σ → σ}
    {J' : α → σ → Prop} (hf : ∀ a s, J a s → J' a (f s)) : Secures I bad (ensuring x f) J' := by
  intro s hI
  constructor
  · intro a s' hs
    rw [ensuring_apply, Prod.mk.injEq] at hs
    rw [← hs.2]
    exact hf a _ ((hx s hI).1 a _ (Prod.ext hs.1 rfl))
  · intro e s' hs
    rw [ensuring_apply, Prod.mk.injEq] at hs
    exact (hx s hI).2 e _ (Prod.ext hs.1 rfl)

theorem secures_each {f : α → Attempt σ ε β} {l : List α}
    (h : ∀ a ∈ l, Secures I bad (f a) fun _ => I) : Secures I bad (each f l) fun _ => I := by
  induction l with
  | nil => exact secures_pure fun _ hI => hI
  | cons a l ih =>
    rw [List.forall_mem_cons] at h
    rw [each_cons]
    exact h.1.bind fun b => (ih h.2).bind fun bs => secures_pure fun _ hI => hI

end Secures

end WorkflowCompiler.Attempt
