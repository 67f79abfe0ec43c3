/-
  Divachain.Lib.Scan — loops that check element after element and may throw.

  The verdict on an element is true to go on, false to return false at once,
  and none where the check throws.  It may depend on a state that the elements
  before have left.  What a loop comes to is decided by the first element whose
  verdict is not true.

  Main results:
    * `scan_eq_true_iff` — all elements pass;
    * `scan_ne_none_iff` — the first element that does not pass does not throw.
-/
import Mathlib.Data.List.Basic

namespace DataKit

section Scan

variable {σ α : Type} (next : σ → α → σ) (verdict : σ → α → Option Bool)

/-- The loop; `none` where a check throws. -/
def scan : σ → List α → Option Bool
  | _, [] => some true
  | s, a :: l =>
      match verdict s a with
      | some true => scan (next s a) l
      | some false => some false
      | none => none

/-- Every element passes, in the state the ones before it have left. -/
def Passes (s : σ) (l : List α) : Prop :=
  ∀ before a after, l = before ++ a :: after → verdict (before.foldl next s) a = some true

/-- No element that the loop comes to throws. -/
def Unthrown (s : σ) (l : List α) : Prop :=
  ∀ before a after, l = before ++ a :: after → Passes next verdict s before →
    verdict (before.foldl next s) a ≠ none

variable {next verdict} {s : σ} {a : α} {l : List α}

theorem passes_nil : Passes next verdict s [] := by
  intro before a after h
  exact absurd h.symm (by simp)

theorem passes_cons :
    Passes next verdict s (a :: l) ↔ verdict s a = some true ∧ Passes next verdict (next s a) l := by
  constructor
  · intro h
    refine ⟨h [] a l rfl, ?_⟩
    intro before b after hl
    exact h (a :: before) b after (by rw [hl, List.cons_append])
  · rintro ⟨hfirst, hrest⟩ before b after hl
    cases before with
    | nil =>
      obtain ⟨rfl, -⟩ := List.cons.inj hl
      exact hfirst
    | cons c before =>
      rw [List.cons_append, List.cons.injEq] at hl
      obtain ⟨rfl, hl⟩ := hl
      exact hrest before b after hl

theorem unthrown_cons :
    Unthrown next verdict s (a :: l) ↔ verdict s a ≠ none
      ∧ (verdict s a = some true → Unthrown next verdict (next s a) l) := by
  constructor
  · intro h
    refine ⟨h [] a l rfl passes_nil, ?_⟩
    intro hfirst before b after hl hbefore
    exact h (a :: before) b after (by rw [hl, List.cons_append]) (passes_cons.mpr ⟨hfirst, hbefore⟩)
  · rintro ⟨hfirst, hrest⟩ before b after hl hbefore
    cases before with
    | nil =>
      obtain ⟨rfl, -⟩ := List.cons.inj hl
      exact hfirst
    | cons c before =>
      rw [List.cons_append, List.cons.injEq] at hl
      obtain ⟨rfl, hl⟩ := hl
      obtain ⟨hpass, hbefore⟩ := passes_cons.mp hbefore
      exact hrest hpass before b after hl hbefore

/-- **The loop comes to its end** exactly if every element passes. -/
theorem scan_eq_true_iff :
    ∀ {s : σ} {l : List α}, scan next verdict s l = some true ↔ Passes next verdict s l
  | s, [] => iff_of_true rfl passes_nil
  | s, a :: l => by
      rw [passes_cons, scan, ← scan_eq_true_iff]
      cases verdict s a with
      | none => simp
      | some b => cases b <;> simp

/-- **The loop throws** exactly if the first element that does not pass does. -/
theorem scan_ne_none_iff :
    ∀ {s : σ} {l : List α}, scan next verdict s l ≠ none ↔ Unthrown next verdict s l
  | s, [] => by
      refine iff_of_true (fun h => nomatch h) ?_
      intro before a after h
      exact absurd h.symm (by simp)
  | s, a :: l => by
      rw [unthrown_cons, scan, ← scan_ne_none_iff]
      cases verdict s a with
      | none => simp
      | some b => cases b <;> simp

end Scan

end DataKit
