import Mathlib.Data.List.Induction
import Mathlib.Order.Bounds.Basic
import WorkflowCompiler.Validation.Suggestion

/-!
# The candidate that is suggested

The similarity of two texts is found in one go from the front and one from the back, the second
over what the first one left. It is what the longest common start and the longest common end come to
together, as far as both texts are long enough for them (`similarity_eq_min`); and of all ways to
take apart two texts into a common start, a common end and what is between them, one counts as many
characters and none counts more (`isGreatest_similarity`).

Candidates are gone through once, with the best one so far at hand. With every further candidate
this stays the first of the most similar ones (`best_concat`, `best_cases`), so what is suggested in
the end is that one, if it is similar enough (`suggest_mostSimilar`). In another order another
candidate may be suggested, but none that is more or less similar (`suggest_equallyGood`).
-/

namespace WorkflowCompiler.Suggestion

/-! ## Common starts and ends -/

/-- The lengths of the common starts of two texts. -/
def starts (as bs : List Char) : Set Nat :=
  {n | ∃ front, front <+: as ∧ front <+: bs ∧ front.length = n}

/-- The lengths of the common ends of two texts. -/
def ends (as bs : List Char) : Set Nat :=
  {n | ∃ rear, rear <:+ as ∧ rear <:+ bs ∧ rear.length = n}

/-- The numbers of characters that two texts share at a common start and, apart from it, at a common
end. -/
def shares (as bs : List Char) : Set Nat :=
  {n | ∃ front rear mid mid', as = front ++ mid ++ rear ∧ bs = front ++ mid' ++ rear ∧
    front.length + rear.length = n}

theorem commonPrefix_cons_self (c : Char) (as bs : List Char) :
    commonPrefix (c :: as) (c :: bs) = commonPrefix as bs + 1 := by
  rw [commonPrefix, if_pos rfl]

theorem commonPrefix_cons_of_ne {a b : Char} (h : a ≠ b) (as bs : List Char) :
    commonPrefix (a :: as) (b :: bs) = 0 := by
  rw [commonPrefix, if_neg h]

@[simp] theorem commonPrefix_nil_left (bs : List Char) : commonPrefix [] bs = 0 := by
  rw [commonPrefix]
  simp

@[simp] theorem commonPrefix_nil_right (as : List Char) : commonPrefix as [] = 0 := by
  rw [commonPrefix]
  simp

theorem commonPrefix_comm (as bs : List Char) : commonPrefix as bs = commonPrefix bs as := by
  induction as generalizing bs with
  | nil => simp
  | cons a as ih =>
    cases bs with
    | nil => simp
    | cons b bs =>
      by_cases h : a = b
      · subst h
        rw [commonPrefix_cons_self, commonPrefix_cons_self, ih]
      · rw [commonPrefix_cons_of_ne h, commonPrefix_cons_of_ne (Ne.symm h)]

theorem commonPrefix_le_left (as bs : List Char) : commonPrefix as bs ≤ as.length := by
  induction as generalizing bs with
  | nil => simp
  | cons a as ih =>
    cases bs with
    | nil => simp
    | cons b bs =>
      by_cases h : a = b
      · subst h
        rw [commonPrefix_cons_self, List.length_cons]
        exact Nat.succ_le_succ (ih bs)
      · rw [commonPrefix_cons_of_ne h]
        apply Nat.zero_le

theorem commonPrefix_le_right (as bs : List Char) : commonPrefix as bs ≤ bs.length := by
  rw [commonPrefix_comm]
  exact commonPrefix_le_left bs as

/-- As many characters as counted are the same. -/
theorem take_commonPrefix (as bs : List Char) :
    as.take (commonPrefix as bs) = bs.take (commonPrefix as bs) := by
  induction as generalizing bs with
  | nil => simp
  | cons a as ih =>
    cases bs with
    | nil => simp
    | cons b bs =>
      by_cases h : a = b
      · subst h
        rw [commonPrefix_cons_self, List.take_succ_cons, List.take_succ_cons, ih]
      · simp [commonPrefix_cons_of_ne h]

/-- A common start is counted in full. -/
theorem commonPrefix_append (front as bs : List Char) :
    commonPrefix (front ++ as) (front ++ bs) = front.length + commonPrefix as bs := by
  induction front with
  | nil => simp
  | cons c front ih =>
    rw [List.cons_append, List.cons_append, commonPrefix_cons_self, ih, List.length_cons]
    omega

/-- Of texts that are cut short, as much is common as is left of what was common before. -/
theorem commonPrefix_take (as bs : List Char) (m n : Nat) :
    commonPrefix (as.take m) (bs.take n) = min (commonPrefix as bs) (min m n) := by
  induction as generalizing bs m n with
  | nil => simp
  | cons a as ih =>
    cases bs with
    | nil => simp
    | cons b bs =>
      cases m with
      | zero => simp
      | succ m =>
        cases n with
        | zero => simp
        | succ n =>
          rw [List.take_succ_cons, List.take_succ_cons]
          by_cases h : a = b
          · subst h
            rw [commonPrefix_cons_self, commonPrefix_cons_self, ih]
            omega
          · simp [commonPrefix_cons_of_ne h]

theorem isGreatest_commonPrefix (as bs : List Char) :
    IsGreatest (starts as bs) (commonPrefix as bs) := by
  constructor
  · refine ⟨as.take (commonPrefix as bs), List.take_prefix _ _, ?_, ?_⟩
    · rw [take_commonPrefix]
      exact List.take_prefix _ _
    · rw [List.length_take, Nat.min_eq_left (commonPrefix_le_left as bs)]
  · rintro n ⟨front, ⟨as', rfl⟩, ⟨bs', rfl⟩, rfl⟩
    rw [commonPrefix_append]
    exact Nat.le_add_right _ _

/-- A common end is a common start of the texts read backwards. -/
theorem ends_eq (as bs : List Char) : ends as bs = starts as.reverse bs.reverse := by
  ext n
  constructor
  · rintro ⟨rear, has, hbs, rfl⟩
    exact ⟨rear.reverse, List.reverse_prefix.2 has, List.reverse_prefix.2 hbs, List.length_reverse⟩
  · rintro ⟨front, has, hbs, rfl⟩
    refine ⟨front.reverse, ?_, ?_, List.length_reverse⟩
    · rwa [← List.reverse_prefix, List.reverse_reverse]
    · rwa [← List.reverse_prefix, List.reverse_reverse]

theorem isGreatest_commonSuffix (as bs : List Char) :
    IsGreatest (ends as bs) (commonSuffix as bs) := by
  rw [ends_eq]
  exact isGreatest_commonPrefix as.reverse bs.reverse

theorem commonSuffix_comm (as bs : List Char) : commonSuffix as bs = commonSuffix bs as :=
  commonPrefix_comm as.reverse bs.reverse

theorem commonSuffix_drop (as bs : List Char) (n : Nat) :
    commonSuffix (as.drop n) (bs.drop n) =
      min (commonSuffix as bs) (min (as.length - n) (bs.length - n)) := by
  rw [commonSuffix, List.reverse_drop, List.reverse_drop, commonPrefix_take]
  rfl

/-! ## Similarity -/

/-- The common start and the common end count, as far as both texts have room for them. -/
theorem similarity_eq_min (as bs : List Char) :
    similarity as bs =
      min (commonPrefix as bs + commonSuffix as bs) (min as.length bs.length) := by
  have hleft := commonPrefix_le_left as bs
  have hright := commonPrefix_le_right as bs
  rw [similarity, commonSuffix_drop]
  omega

theorem similarity_comm (as bs : List Char) : similarity as bs = similarity bs as := by
  rw [similarity_eq_min, similarity_eq_min, commonPrefix_comm, commonSuffix_comm,
    Nat.min_comm as.length]

/-- The characters that are counted stand at a common start and a common end that do not overlap,
and nowhere more of them do. -/
theorem isGreatest_similarity (as bs : List Char) :
    IsGreatest (shares as bs) (similarity as bs) := by
  constructor
  · obtain ⟨rear, ⟨mid, hmid⟩, ⟨mid', hmid'⟩, hrear⟩ :=
      (isGreatest_commonSuffix (as.drop (commonPrefix as bs)) (bs.drop (commonPrefix as bs))).1
    refine ⟨as.take (commonPrefix as bs), rear, mid, mid', ?_, ?_, ?_⟩
    · rw [List.append_assoc, hmid, List.take_append_drop]
    · rw [List.append_assoc, hmid', take_commonPrefix, List.take_append_drop]
    · rw [List.length_take, Nat.min_eq_left (commonPrefix_le_left as bs), hrear]
      rfl
  · rintro n ⟨front, rear, mid, mid', has, hbs, rfl⟩
    have hfront : front.length ≤ commonPrefix as bs := by
      apply (isGreatest_commonPrefix as bs).2
      refine ⟨front, ?_, ?_, rfl⟩
      · exact ⟨mid ++ rear, by rw [has, List.append_assoc]⟩
      · exact ⟨mid' ++ rear, by rw [hbs, List.append_assoc]⟩
    have hrear : rear.length ≤ commonSuffix as bs := by
      apply (isGreatest_commonSuffix as bs).2
      exact ⟨rear, ⟨front ++ mid, has.symm⟩, ⟨front ++ mid', hbs.symm⟩, rfl⟩
    rw [similarity_eq_min, has, hbs] at *
    simp only [List.length_append] at *
    omega

/-! ## The best candidate -/

/-- The candidate is the first of the most similar ones, the target itself apart. -/
structure MostSimilar (target : String) (candidates : List String) (c : String) : Prop where
  /-- the target itself is no candidate -/
  ne_target : c ≠ target
  /-- no other candidate is more similar -/
  maximal : ∀ d ∈ candidates, d ≠ target →
    similarity target.toList d.toList ≤ similarity target.toList c.toList
  /-- those before it are less similar -/
  earliest : ∃ before after, candidates = before ++ c :: after ∧
    ∀ d ∈ before, d ≠ target →
      similarity target.toList d.toList < similarity target.toList c.toList

namespace MostSimilar

variable {target c d : String} {candidates : List String}

theorem mem (h : MostSimilar target candidates c) : c ∈ candidates := by
  obtain ⟨before, after, rfl, -⟩ := h.earliest
  simp

/-- There is one at most. -/
theorem unique (hc : MostSimilar target candidates c) (hd : MostSimilar target candidates d) :
    c = d := by
  obtain ⟨before, after, hsplit, hbefore⟩ := hc.earliest
  obtain ⟨before', after', hsplit', hbefore'⟩ := hd.earliest
  have hcd := hc.maximal d hd.mem hd.ne_target
  have hdc := hd.maximal c hc.mem hc.ne_target
  -- whichever stands before the other one would be less similar
  rw [hsplit] at hsplit'
  rcases List.append_eq_append_iff.1 hsplit' with ⟨between, rfl, htail⟩ | ⟨between, rfl, htail⟩
  · cases between with
    | nil => exact (List.cons.inj htail).1
    | cons e between =>
      obtain rfl : c = e := (List.cons.inj htail).1
      have hlt := hbefore' c (by simp) hc.ne_target
      omega
  · cases between with
    | nil => exact (List.cons.inj htail).1.symm
    | cons e between =>
      obtain rfl : d = e := (List.cons.inj htail).1
      have hlt := hbefore d (by simp) hd.ne_target
      omega

/-- It stays so behind it, unless a candidate is more similar. -/
theorem concat (h : MostSimilar target candidates c)
    (hd : d ≠ target → similarity target.toList d.toList ≤ similarity target.toList c.toList) :
    MostSimilar target (candidates ++ [d]) c := by
  obtain ⟨before, after, rfl, hbefore⟩ := h.earliest
  refine ⟨h.ne_target, fun e he hne => ?_, before, after ++ [d], by simp, hbefore⟩
  rcases List.mem_append.1 he with he | he
  · exact h.maximal e he hne
  · rw [List.mem_singleton] at he
    subst he
    exact hd hne

/-- A candidate that is more similar than all before it is the first of the most similar ones. -/
theorem last (hne : d ≠ target)
    (h : ∀ e ∈ candidates, e ≠ target →
      similarity target.toList e.toList < similarity target.toList d.toList) :
    MostSimilar target (candidates ++ [d]) d := by
  refine ⟨hne, fun e he hother => ?_, candidates, [], rfl, h⟩
  rcases List.mem_append.1 he with he | he
  · exact Nat.le_of_lt (h e he hother)
  · rw [List.mem_singleton] at he
    rw [he]

end MostSimilar

variable (target : String) (candidates : List String)

theorem best_concat (d : String) :
    best target (candidates ++ [d]) =
      if d = target then best target candidates
      else
        match best target candidates with
        | none => some (d, similarity target.toList d.toList)
        | some (_, top) =>
          if top < similarity target.toList d.toList then
            some (d, similarity target.toList d.toList)
          else best target candidates := by
  rw [best, List.foldl_append]
  rfl

/-- All candidates are the target and none is the best, or the best one is the first of the most
similar ones. -/
theorem best_cases :
    (best target candidates = none ∧ ∀ c ∈ candidates, c = target) ∨
      ∃ c, best target candidates = some (c, similarity target.toList c.toList) ∧
        MostSimilar target candidates c := by
  induction candidates using List.reverseRecOn with
  | nil => exact .inl ⟨rfl, by simp⟩
  | append_singleton candidates d ih =>
    rw [best_concat]
    by_cases hd : d = target
    · rw [if_pos hd]
      rcases ih with ⟨hbest, hall⟩ | ⟨c, hbest, hc⟩
      · refine .inl ⟨hbest, fun c hmem => ?_⟩
        rcases List.mem_append.1 hmem with hmem | hmem
        · exact hall c hmem
        · rw [List.mem_singleton] at hmem
          rw [hmem, hd]
      · exact .inr ⟨c, hbest, hc.concat fun hne => absurd hd hne⟩
    · rw [if_neg hd]
      rcases ih with ⟨hbest, hall⟩ | ⟨c, hbest, hc⟩
      · rw [hbest]
        exact .inr ⟨d, rfl, .last hd fun e he hne => absurd (hall e he) hne⟩
      · simp only [hbest]
        split
        · rename_i hlt
          refine .inr ⟨d, rfl, .last hd fun e he hne => ?_⟩
          exact Nat.lt_of_le_of_lt (hc.maximal e he hne) hlt
        · rename_i hle
          exact .inr ⟨c, rfl, hc.concat fun _ => Nat.not_lt.1 hle⟩

variable {target candidates} in
theorem suggest_eq_some_iff {c : String} :
    suggest target candidates = some c ↔
      MostSimilar target candidates c ∧
        target.length < 2 * similarity target.toList c.toList := by
  rcases best_cases target candidates with ⟨hbest, hall⟩ | ⟨d, hbest, hd⟩
  · rw [suggest, hbest]
    constructor
    · intro h
      cases h
    · rintro ⟨hc, -⟩
      exact absurd (hall c hc.mem) hc.ne_target
  · simp only [suggest, hbest]
    constructor
    · intro h
      split at h
      · rename_i hlt
        cases h
        exact ⟨hd, hlt⟩
      · cases h
    · rintro ⟨hc, hlt⟩
      obtain rfl := hc.unique hd
      rw [if_pos hlt]

/-! ## The order of the candidates -/

/-- Two suggestions for a target are equally good: there is none, or there are two candidates that
are equally similar to it. -/
def EquallyGood (target : String) (a b : Option String) : Prop :=
  a.map (fun c => similarity target.toList c.toList) =
    b.map (fun c => similarity target.toList c.toList)

theorem exists_suggest_of_mem_iff {target c : String} {candidates candidates' : List String}
    (h : ∀ d, d ∈ candidates ↔ d ∈ candidates') (hc : suggest target candidates = some c) :
    ∃ c', suggest target candidates' = some c' ∧
      similarity target.toList c.toList = similarity target.toList c'.toList := by
  obtain ⟨hmost, hlong⟩ := suggest_eq_some_iff.1 hc
  rcases best_cases target candidates' with ⟨-, hall⟩ | ⟨c', -, hmost'⟩
  · exact absurd (hall c ((h c).1 hmost.mem)) hmost.ne_target
  · -- each of the two is among the candidates that the other one is not surpassed by
    have hsame : similarity target.toList c.toList = similarity target.toList c'.toList :=
      Nat.le_antisymm (hmost'.maximal c ((h c).1 hmost.mem) hmost.ne_target)
        (hmost.maximal c' ((h c').2 hmost'.mem) hmost'.ne_target)
    exact ⟨c', suggest_eq_some_iff.2 ⟨hmost', hsame ▸ hlong⟩, hsame⟩

/-- What is suggested is equally good, in whichever order the candidates come. -/
theorem suggest_equallyGood {target : String} {candidates candidates' : List String}
    (h : ∀ d, d ∈ candidates ↔ d ∈ candidates') :
    EquallyGood target (suggest target candidates) (suggest target candidates') := by
  rcases hc : suggest target candidates with _ | c
  · rcases hc' : suggest target candidates' with _ | c'
    · rfl
    · obtain ⟨d, hd, -⟩ := exists_suggest_of_mem_iff (fun d => (h d).symm) hc'
      rw [hc] at hd
      cases hd
  · obtain ⟨c', hc', hsame⟩ := exists_suggest_of_mem_iff h hc
    rw [hc']
    exact congrArg some hsame

/-! ## The law of suggestions -/

/-- A candidate is suggested exactly if it is the first of the most similar ones, the target itself
apart, and twice its similarity is more than the length of the target. The similarity is what the
longest common start and the longest common end have together, but no more than either text has; it
does not depend on which text comes first; and it is the greatest number of characters at a common
start and a common end that do not overlap. -/
theorem suggest_mostSimilar :
    (∀ (target : String) (candidates : List String) (c : String),
      suggest target candidates = some c ↔
        MostSimilar target candidates c ∧
          target.length < 2 * similarity target.toList c.toList) ∧
    ∀ a b : String,
      (∃ front rear, IsGreatest (starts a.toList b.toList) front ∧
        IsGreatest (ends a.toList b.toList) rear ∧
        similarity a.toList b.toList = min (front + rear) (min a.length b.length)) ∧
      similarity a.toList b.toList = similarity b.toList a.toList ∧
      IsGreatest (shares a.toList b.toList) (similarity a.toList b.toList) := by
  refine ⟨fun _ _ _ => suggest_eq_some_iff, fun a b => ⟨?_, ?_, ?_⟩⟩
  · refine ⟨_, _, isGreatest_commonPrefix a.toList b.toList,
      isGreatest_commonSuffix a.toList b.toList, ?_⟩
    rw [similarity_eq_min, String.length_toList, String.length_toList]
  · exact similarity_comm _ _
  · exact isGreatest_similarity _ _

example : suggest "tests" ["best", "test1", "tests", "test2"] = some "test1" := by decide

end WorkflowCompiler.Suggestion
