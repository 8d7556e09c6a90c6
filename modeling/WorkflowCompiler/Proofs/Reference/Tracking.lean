import Mathlib.Data.List.Nodup
import WorkflowCompiler.Reference.Tracker

/-!
# The tracker along calls

Nothing is done with a tracker but to enter and leave workflows (`Tracker.Call`). Each call keeps
the set of keys and the chain of keys in step, and the chain free of repeated keys
(`Tracker.Orderly`, `Tracker.Orderly.call`), so a tracker is orderly after all calls
(`Tracker.orderly_after`). That the set may be asked instead of the chain, that a circle starts at
the one place of its key, and that leaving undoes entering all rest on that.
-/

namespace WorkflowCompiler.Tracker

variable {t t' : Tracker} {file workflow key : String} {circle : List String}

/-! ## Entering and leaving -/

/-- The tracker after a workflow was entered. -/
def entered (t : Tracker) (key : String) : Tracker where
  inProgress := key :: t.inProgress
  stack := key :: t.stack

@[simp] theorem chain_entered (t : Tracker) (key : String) :
    (t.entered key).chain = t.chain ++ [key] :=
  List.reverse_cons

theorem enter_of_mem (h : Reference.key file workflow ∈ t.inProgress) :
    t.enter file workflow = (.error (t.circle (Reference.key file workflow)), t) :=
  if_pos h

theorem enter_of_not_mem (h : Reference.key file workflow ∉ t.inProgress) :
    t.enter file workflow = (.ok (), t.entered (Reference.key file workflow)) :=
  if_neg h

/-- To enter fails with the circle of a key that is in progress, and with nothing else; the tracker
stays as it is. -/
theorem enter_eq_error_iff :
    t.enter file workflow = (.error circle, t') ↔
      Reference.key file workflow ∈ t.inProgress ∧
        circle = t.circle (Reference.key file workflow) ∧ t' = t := by
  by_cases hmem : Reference.key file workflow ∈ t.inProgress
  · rw [enter_of_mem hmem, Prod.mk.injEq, Except.error.injEq, and_iff_right hmem, eq_comm,
      @eq_comm _ t]
  · rw [enter_of_not_mem hmem]
    simp [hmem]

/-- To enter succeeds with a key that is not in progress, which it adds. -/
theorem enter_eq_ok_iff :
    t.enter file workflow = (.ok (), t') ↔
      Reference.key file workflow ∉ t.inProgress ∧
        t' = t.entered (Reference.key file workflow) := by
  by_cases hmem : Reference.key file workflow ∈ t.inProgress
  · rw [enter_of_mem hmem]
    simp [hmem]
  · rw [enter_of_not_mem hmem, Prod.mk.injEq, and_iff_right rfl, and_iff_right hmem, eq_comm]

/-- What was entered is left, whatever the tracker was. -/
theorem exit_entered (h : key ∉ t.inProgress) : (t.entered key).exit = (some key, t) := by
  have hrest : (key :: t.inProgress).filter (· ≠ key) = t.inProgress := by
    rw [List.filter_cons_of_neg (by simp), List.filter_eq_self]
    intro other hother
    rw [decide_eq_true_iff]
    rintro rfl
    exact h hother
  rw [exit, entered]
  simp only [hrest]

/-- The circle that a key closes starts where the chain first has it. -/
theorem circle_eq {before after : List String} (h : t.chain = before ++ key :: after)
    (hnot : key ∉ before) : t.circle key = key :: after ++ [key] := by
  have hbefore : ∀ other ∈ before, decide (other ≠ key) = true := by
    intro other hother
    rw [decide_eq_true_iff]
    rintro rfl
    exact hnot hother
  rw [circle, h, List.dropWhile_append_of_pos hbefore, List.dropWhile_cons_of_neg (by simp)]

/-! ## What every call keeps -/

/-- The keys of the set are those of the chain, which has every key once. -/
structure Orderly (t : Tracker) : Prop where
  /-- the set has been added to and taken from as the chain has -/
  inProgress : t.inProgress = t.stack
  /-- no key stands twice -/
  nodup : t.stack.Nodup

theorem orderly_new : ({} : Tracker).Orderly where
  inProgress := rfl
  nodup := List.nodup_nil

namespace Orderly

theorem mem_inProgress_iff (h : t.Orderly) : key ∈ t.inProgress ↔ key ∈ t.chain := by
  rw [h.inProgress, chain, List.mem_reverse]

theorem nodup_chain (h : t.Orderly) : t.chain.Nodup :=
  List.nodup_reverse.2 h.nodup

theorem entered (h : t.Orderly) (hnew : key ∉ t.inProgress) : (t.entered key).Orderly where
  inProgress := congrArg (key :: ·) h.inProgress
  nodup := List.nodup_cons.2 ⟨h.inProgress ▸ hnew, h.nodup⟩

theorem enter (h : t.Orderly) (file workflow : String) : (t.enter file workflow).2.Orderly := by
  by_cases hmem : Reference.key file workflow ∈ t.inProgress
  · rw [enter_of_mem hmem]
    exact h
  · rw [enter_of_not_mem hmem]
    exact h.entered hmem

/-- The key that is left stands in the chain once, so both structures lose one entry. -/
theorem exit (h : t.Orderly) : t.exit.2.Orderly := by
  obtain ⟨inProgress, stack⟩ := t
  obtain ⟨hsame, hnodup⟩ := h
  obtain rfl : inProgress = stack := hsame
  cases inProgress with
  | nil => exact orderly_new
  | cons key rest =>
    obtain ⟨hkey, hrest⟩ := List.nodup_cons.1 hnodup
    have hleft : (Tracker.entered ⟨rest, rest⟩ key).exit = (some key, ⟨rest, rest⟩) :=
      exit_entered hkey
    rw [Tracker.entered] at hleft
    rw [hleft]
    exact ⟨rfl, hrest⟩

end Orderly

/-! ## Runs of calls -/

/-- What is done with a tracker. -/
inductive Call where
  /-- a workflow of a file is entered, if it can be -/
  | enter (file workflow : String)
  /-- the workflow entered last is left, if there is one -/
  | exit

/-- The tracker after a call. -/
def call (t : Tracker) : Call → Tracker
  | .enter file workflow => (t.enter file workflow).2
  | .exit => t.exit.2

/-- The tracker after the calls, one after the other, from a new tracker on. -/
def after (calls : List Call) : Tracker := calls.foldl call {}

theorem after_concat (calls : List Call) (c : Call) : after (calls ++ [c]) = (after calls).call c :=
  List.foldl_concat ..

theorem Orderly.call (h : t.Orderly) (c : Call) : (t.call c).Orderly := by
  cases c with
  | enter file workflow => exact h.enter file workflow
  | exit => exact h.exit

theorem Orderly.foldl (h : t.Orderly) (calls : List Call) :
    (calls.foldl Tracker.call t).Orderly := by
  induction calls generalizing t with
  | nil => exact h
  | cons c calls ih => exact ih (h.call c)

theorem orderly_after (calls : List Call) : (after calls).Orderly :=
  orderly_new.foldl calls

/-- The circle of an orderly tracker is the end of the chain from the one place of the key on, and
the key. -/
theorem Orderly.exists_circle_eq (h : t.Orderly) (hmem : key ∈ t.inProgress) :
    ∃ before rest, t.chain = before ++ key :: rest ∧ t.circle key = key :: rest ++ [key] := by
  obtain ⟨before, rest, hchain, hnot⟩ :=
    List.eq_append_cons_of_mem (h.mem_inProgress_iff.1 hmem)
  exact ⟨before, rest, hchain, circle_eq hchain hnot⟩

/-- After all calls the set holds exactly the keys of the chain, and the chain every key once. A
workflow cannot be entered exactly if its key is in the chain: then the tracker stays as it is, and
what is reported is the chain from the key on and the key once more. A workflow that is entered
comes last in the chain, and leaving gives its key and the tracker from before. -/
theorem enter_exit_after (calls : List Call) :
    (∀ key, key ∈ (after calls).inProgress ↔ key ∈ (after calls).chain) ∧
      (after calls).chain.Nodup ∧
      ∀ file workflow key, Reference.key file workflow = key →
        ((∃ circle t', (after calls).enter file workflow = (.error circle, t')) ↔
          key ∈ (after calls).chain) ∧
        (∀ circle t', (after calls).enter file workflow = (.error circle, t') →
          t' = after calls ∧ after (calls ++ [.enter file workflow]) = after calls ∧
          ∃ before rest, (after calls).chain = before ++ key :: rest ∧
            circle = key :: rest ++ [key]) ∧
        ∀ t', (after calls).enter file workflow = (.ok (), t') →
          t' = after (calls ++ [.enter file workflow]) ∧
          t'.chain = (after calls).chain ++ [key] ∧
          t'.exit = (some key, after calls) := by
  have horderly := orderly_after calls
  refine ⟨fun key => horderly.mem_inProgress_iff, horderly.nodup_chain, ?_⟩
  rintro file workflow key rfl
  refine ⟨?_, fun circle t' herror => ?_, fun t' hok => ⟨?_, ?_⟩⟩
  · rw [← horderly.mem_inProgress_iff]
    simp only [enter_eq_error_iff, exists_and_left, exists_eq, and_true]
  · obtain ⟨hmem, rfl, rfl⟩ := enter_eq_error_iff.1 herror
    refine ⟨rfl, ?_, horderly.exists_circle_eq hmem⟩
    rw [after_concat, call, herror]
  · rw [after_concat, call, hok]
  · obtain ⟨hnew, rfl⟩ := enter_eq_ok_iff.1 hok
    exact ⟨chain_entered _ _, exit_entered hnew⟩

/-- With a workflow of one file and one of another in progress, the first one is entered again
under another spelling. -/
theorem enter_exit_after_two :
    ∃ before rest,
      (after [.enter "a.toml" "main", .exit, .exit, .enter "lib/../a.toml" "main",
        .enter "b.toml" "main"]).chain = before ++ "a.toml#main" :: rest ∧
      ["a.toml#main", "b.toml#main", "a.toml#main"] = "a.toml#main" :: rest ++ ["a.toml#main"] :=
  (((enter_exit_after _).2.2 "./a.toml" "main" "a.toml#main" (by decide +kernel)).2.1
    ["a.toml#main", "b.toml#main", "a.toml#main"]
    { inProgress := ["b.toml#main", "a.toml#main"], stack := ["b.toml#main", "a.toml#main"] }
    (by decide +kernel)).2.2

end WorkflowCompiler.Tracker
