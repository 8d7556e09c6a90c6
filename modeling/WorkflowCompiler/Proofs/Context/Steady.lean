import Mathlib.Logic.Relation
import WorkflowCompiler.Proofs.Context.Mentions
import WorkflowCompiler.Proofs.Context.Values

/-!
# Texts that are steady

A text is *steady* for roots if no placeholder of it is rooted in one of them, and neither is one
that passes bring in (`Context.Steady`). What the roots stand for does not matter then: contexts
that differ in them only make the same of the text (`Context.Steady.substituteIn_eq`).

Whether a text is steady depends on the values of the context. But it is if the text is *clear* of
the roots and all values are (`Context.steady_of_clear`), which can be read off the texts.
-/

namespace WorkflowCompiler

/-- No placeholder of the text is rooted in one of these, and none comes in with braces of it. -/
def Clear (roots : List String) (text : String) : Prop :=
  TidyText text ∧ ∀ path ∈ placeholderPaths text, ¬ RootedIn roots path

instance (roots : List String) (text : String) : Decidable (Clear roots text) :=
  inferInstanceAs
    (Decidable (TidyText text ∧ ∀ path ∈ placeholderPaths text, ¬ RootedIn roots path))

namespace Clear

variable {roots more : List String} {text : String}

theorem mono (h : Clear more text) (hsub : roots ⊆ more) : Clear roots text :=
  ⟨h.1, fun path hpath hroot => h.2 path hpath <| by
    obtain ⟨root, fields, hreferent, hmem⟩ := hroot
    exact ⟨root, fields, hreferent, hsub hmem⟩⟩

theorem pieces (h : Clear roots text) :
    FinePieces (¬ RootedIn roots ·) (WorkflowCompiler.pieces text.toList) :=
  ⟨fun _ hpiece => proper_of_mem_pieces hpiece, h.1, h.2⟩

end Clear

namespace Context

variable {roots : List String} {c c' : Context} {text next : List Char}

/-- A pass makes the second text of the first one, and replaces something. -/
def Passes (c : Context) (text next : List Char) : Prop :=
  c.expandIn Json.text (pieces text) = .ok (next, true)

/-- Whatever passes make of the text, no placeholder of it is rooted in one of these. -/
def Steady (roots : List String) (c : Context) (text : List Char) : Prop :=
  ∀ next, Relation.ReflTransGen c.Passes text next →
    ∀ path ∈ (pieces next).filterMap Piece.path?, ¬ RootedIn roots path

namespace Steady

theorem of_passes (h : c.Steady roots text) (hpass : c.Passes text next) : c.Steady roots next :=
  fun last hway => h last (.head hpass hway)

theorem expandIn_eq (h : c.Steady roots text) (hagrees : c.AgreesBut roots c')
    (write : Json → String) :
    c'.expandIn write (pieces text) = c.expandIn write (pieces text) :=
  expandIn_congr_of_mem fun path hpath => hagrees.resolveIn_eq path (h text .refl path hpath)

theorem roundsIn_eq (h : c.Steady roots text) (hagrees : c.AgreesBut roots c') (rounds : Nat) :
    c'.roundsIn rounds text = c.roundsIn rounds text := by
  induction rounds generalizing text with
  | zero => rw [roundsIn, roundsIn, hagrees.deferred_eq]
  | succ rounds ih =>
    rw [roundsIn, roundsIn, h.expandIn_eq hagrees]
    rcases hpass : c.expandIn Json.text (pieces text) with e | ⟨next, replaced⟩
    · rfl
    · cases replaced with
      | false => rfl
      | true => exact ih (h.of_passes hpass)

/-- What a steady text becomes does not depend on the roots. -/
theorem substituteIn_eq {text : String} (h : c.Steady roots text.toList)
    (hagrees : c.AgreesBut roots c') : c'.substituteIn text = c.substituteIn text := by
  rw [substituteIn, substituteIn, h.roundsIn_eq hagrees]

theorem substituteShellIn_eq {text : String} (h : c.Steady roots text.toList)
    (hagrees : c.AgreesBut roots c') :
    c'.substituteShellIn text = c.substituteShellIn text := by
  rw [substituteShellIn, substituteShellIn, h.expandIn_eq hagrees]

end Steady

/-! ## Texts that are clear -/

theorem steady_of_closed (hclosed : c.Closed (¬ RootedIn roots ·))
    (h : FinePieces (¬ RootedIn roots ·) (pieces text)) : c.Steady roots text := by
  intro next hway
  have hnext : FinePieces (¬ RootedIn roots ·) (pieces next) := by
    induction hway with
    | refl => exact h
    | tail _ hpass ih =>
      obtain ⟨qs, hqs, rfl⟩ := hclosed.expandIn_eq_ok ih hpass
      exact hqs.read
  exact hnext.paths

/-- Where all values are clear of the roots, a text that is clear of them is steady. -/
theorem steady_of_clear {text : String} (hvalues : c.Holds (Clear roots)) (h : Clear roots text) :
    c.Steady roots text.toList :=
  steady_of_closed (fun _ _ _ hvalue => (hvalues.of_resolveIn hvalue).pieces) h.pieces

end Context

end WorkflowCompiler
