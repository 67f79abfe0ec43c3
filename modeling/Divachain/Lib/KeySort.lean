/-
  Divachain.Lib.KeySort — sorting by a key, and the order of arrival.

  Insertion sort by a key keeps the order of items with one key.  Items with
  different keys can be inserted in any order (`orderedInsert_comm`), whatever
  they are inserted into, so a list of such items is sorted into another list
  in one way.
-/
import Mathlib.Data.List.Sort
import Mathlib.Data.List.Perm.Basic
import Mathlib.Order.Defs.LinearOrder

namespace DataKit

variable {α κ : Type} [LinearOrder κ] (key : α → κ)

/-- One item in front of another of a key not less. -/
abbrev KeyLe (a b : α) : Prop := key a ≤ key b

/-- The smaller of two keys ends up before the larger one. -/
theorem orderedInsert_comm_of_lt {a b : α} (h : key a < key b) :
    ∀ l : List α, List.orderedInsert (KeyLe key) a (List.orderedInsert (KeyLe key) b l)
      = List.orderedInsert (KeyLe key) b (List.orderedInsert (KeyLe key) a l)
  | [] => by
      have hab : KeyLe key a b := le_of_lt h
      have hba : ¬ KeyLe key b a := not_le_of_gt h
      simp only [List.orderedInsert_nil, List.orderedInsert_cons, if_pos hab, if_neg hba]
  | c :: l => by
      have hab : KeyLe key a b := le_of_lt h
      have hba : ¬ KeyLe key b a := not_le_of_gt h
      by_cases hbc : KeyLe key b c
      · have hac : KeyLe key a c := le_trans hab hbc
        simp only [List.orderedInsert_cons, if_pos hbc, if_pos hac, if_pos hab, if_neg hba]
      · by_cases hac : KeyLe key a c
        · simp only [List.orderedInsert_cons, if_neg hbc, if_pos hac, if_neg hba]
        · simp only [List.orderedInsert_cons, if_neg hbc, if_neg hac, orderedInsert_comm_of_lt h l]

/-- **Items with different keys can be inserted in any order.** -/
theorem orderedInsert_comm {a b : α} (h : key a ≠ key b) (l : List α) :
    List.orderedInsert (KeyLe key) a (List.orderedInsert (KeyLe key) b l)
      = List.orderedInsert (KeyLe key) b (List.orderedInsert (KeyLe key) a l) := by
  rcases lt_or_gt_of_ne h with hlt | hgt
  · exact orderedInsert_comm_of_lt key hlt l
  · exact (orderedInsert_comm_of_lt key hgt l).symm

theorem insertionSort_append (l₁ l₂ : List α) :
    (l₁ ++ l₂).insertionSort (KeyLe key)
      = l₁.foldr (List.orderedInsert (KeyLe key)) (l₂.insertionSort (KeyLe key)) := by
  induction l₁ with
  | nil => rfl
  | cons a l₁ ih =>
    show List.orderedInsert (KeyLe key) a ((l₁ ++ l₂).insertionSort (KeyLe key)) = _
    rw [ih]
    rfl

/-- **The order of arrival does not show**, where the keys differ. -/
theorem insertionSort_append_congr {l₁ l₁' : List α} (hperm : l₁.Perm l₁')
    (hkeys : (l₁.map key).Nodup) (l₂ : List α) :
    (l₁ ++ l₂).insertionSort (KeyLe key) = (l₁' ++ l₂).insertionSort (KeyLe key) := by
  rw [insertionSort_append, insertionSort_append]
  refine hperm.foldr_eq' ?_ _
  intro a ha b hb l
  by_cases hab : a = b
  · rw [hab]
  · exact orderedInsert_comm key (fun heq => hab (List.inj_on_of_nodup_map hkeys hb ha heq).symm) l

end DataKit
