/-
  Divachain.Lib.StepInvariant — a property of all states of a run.

  A deterministic machine is a state and a step that takes an input.  Where it is
  known for every state with the property which inputs keep it, `invariant_iff`
  says for which sequences of inputs no state ever loses it.
-/
import Mathlib.Data.List.Basic

namespace DataKit

variable {σ ι : Type} {step : σ → ι → σ}

theorem foldl_take_succ (step : σ → ι → σ) (s : σ) {l : List ι} {k : Nat} (hk : k < l.length) :
    (l.take (k + 1)).foldl step s = step ((l.take k).foldl step s) l[k] := by
  rw [List.take_add_one, List.getElem?_eq_getElem hk, List.foldl_append]
  rfl

/-- **Step by step, both ways**: if a step keeps `P` exactly when the input meets
`C`, then `P` holds in all states of a run exactly when all its inputs meet `C`. -/
theorem invariant_iff {P : σ → Prop} {C : σ → ι → Prop}
    (hstep : ∀ s i, P s → (P (step s i) ↔ C s i)) {s : σ} (hstart : P s) (l : List ι) :
    (∀ k, P ((l.take k).foldl step s))
      ↔ ∀ (k : Nat) (hk : k < l.length), C ((l.take k).foldl step s) l[k] := by
  constructor
  · intro h k hk
    have hnext := h (k + 1)
    rw [foldl_take_succ step s hk] at hnext
    exact (hstep _ _ (h k)).mp hnext
  · intro h k
    induction k with
    | zero => exact hstart
    | succ k ih =>
        by_cases hk : k < l.length
        · rw [foldl_take_succ step s hk]
          exact (hstep _ _ ih).mpr (h k hk)
        -- The run is over, and its last state is the one before.
        · rw [List.take_of_length_le (by omega)]
          rw [List.take_of_length_le (by omega)] at ih
          exact ih

end DataKit
