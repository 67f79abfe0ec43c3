/-
  Divachain.Lib.Newest — a filter for numbered items.

  Items come with a key and a number.  The filter keeps the newest number of
  every key and lets an item pass if its number is higher.  `Passed` is what
  holds between the filter and the log of all items that have passed.
-/
import Divachain.Lib.OrdMap

namespace DataKit

variable {κ : Type} [DecidableEq κ]

/-- The newest number of a key, 0 for a new key. -/
def newest (m : OrdMap κ Nat) (k : κ) : Nat := (m.get? k).getD 0

theorem newest_set (m : OrdMap κ Nat) (k k' : κ) (n : Nat) :
    newest (m.set k n) k' = if k' = k then n else newest m k' := by
  unfold newest
  rw [OrdMap.get?_set]
  split
  · rfl
  · rfl

/-- **The filter and its log**: nothing in the log is newer than the filter
knows, and the numbers of one key go up. -/
structure Passed (m : OrdMap κ Nat) (log : List (κ × Nat)) : Prop where
  bounded : ∀ e ∈ log, e.2 ≤ newest m e.1
  increasing : log.Pairwise fun a b => a.1 = b.1 → a.2 < b.2

namespace Passed

theorem empty : Passed (OrdMap.empty : OrdMap κ Nat) [] :=
  ⟨fun _ he => (nomatch he), List.Pairwise.nil⟩

/-- An item passes. -/
theorem pass {m : OrdMap κ Nat} {log : List (κ × Nat)} (h : Passed m log) {k : κ} {n : Nat}
    (hnew : newest m k < n) : Passed (m.set k n) (log ++ [(k, n)]) := by
  refine ⟨?_, ?_⟩
  · intro e he
    rw [newest_set]
    rcases List.mem_append.mp he with he | he
    · have hle := h.bounded e he
      split
      next heq =>
        rw [heq] at hle
        omega
      next => exact hle
    · rw [List.mem_singleton.mp he, if_pos rfl]
  · refine List.pairwise_append.mpr ⟨h.increasing, List.pairwise_singleton _ _, ?_⟩
    intro a ha b hb heq
    -- Every earlier number of `k` is at most `newest m k`, hence below `n`.
    obtain rfl := List.mem_singleton.mp hb
    have hkey : a.1 = k := heq
    have hle := h.bounded a ha
    rw [hkey] at hle
    show a.2 < n
    omega

/-- **Nothing passes twice.** -/
theorem nodup {m : OrdMap κ Nat} {log : List (κ × Nat)} (h : Passed m log) : log.Nodup := by
  refine h.increasing.imp ?_
  intro a b hab heq
  have hlt := hab (congrArg Prod.fst heq)
  rw [heq] at hlt
  omega

end Passed

end DataKit
