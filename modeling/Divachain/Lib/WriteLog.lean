/-
  Divachain.Lib.WriteLog — a log of writes that may fail.

  The n-th write of a log goes to the key n + 1 of an ordered store.  `Recorded`
  says that the store has exactly the values of the writes that have succeeded;
  it is kept by every further write, whether that succeeds or fails.
-/
import Mathlib.Data.Nat.Basic
import Divachain.Lib.Store

namespace DataKit

variable {ν : Type}

/-- **The store has the values of the writes that have succeeded.** -/
structure Recorded (s : Store Nat ν) (log : List (ν × Bool)) : Prop where
  values : s.values = (log.filter Prod.snd).map Prod.fst
  keys_le : ∀ e ∈ s.entries, e.1 ≤ log.length
  lookup : ∀ n v, s.get? (n + 1) = some v ↔ log[n]? = some (v, true)

/-- What stands in a log with one more item. -/
theorem getElem?_concat_eq_some_iff {α : Type} (l : List α) (a b : α) (n : Nat) :
    (l ++ [a])[n]? = some b ↔ l[n]? = some b ∨ n = l.length ∧ a = b := by
  rcases Nat.lt_trichotomy n l.length with hn | rfl | hn
  · rw [List.getElem?_append_left hn]
    constructor
    · exact Or.inl
    · rintro (h | ⟨rfl, -⟩)
      · exact h
      · omega
  · simp
  · have hnone : l[n]? = none := List.getElem?_eq_none (by omega)
    have hnone' : (l ++ [a])[n]? = none := List.getElem?_eq_none (by simp; omega)
    rw [hnone, hnone']
    constructor
    · intro h
      cases h
    · rintro (h | ⟨rfl, -⟩)
      · cases h
      · omega

namespace Recorded

theorem empty : Recorded (Store.empty : Store Nat ν) [] := by
  refine ⟨rfl, fun _ he => (nomatch he), ?_⟩
  intro n v
  constructor
  · intro h
    exact nomatch h
  · intro h
    exact nomatch h

/-- A write fails. -/
theorem failed {s : Store Nat ν} {log : List (ν × Bool)} (h : Recorded s log) (v : ν) :
    Recorded s (log ++ [(v, false)]) := by
  refine ⟨?_, ?_, ?_⟩
  · rw [h.values, List.filter_append]
    simp
  · intro e he
    have hle := h.keys_le e he
    simp
    omega
  · intro n w
    rw [h.lookup, getElem?_concat_eq_some_iff]
    simp

/-- A write succeeds. -/
theorem written {s : Store Nat ν} {log : List (ν × Bool)} (h : Recorded s log) (v : ν) :
    Recorded (s.put (log.length + 1) v) (log ++ [(v, true)]) := by
  refine ⟨?_, ?_, ?_⟩
  · have habove : ∀ e ∈ s.entries, e.1 < log.length + 1 := by
      intro e he
      have hle := h.keys_le e he
      omega
    rw [Store.values, Store.entries_put_above s _ v habove, List.map_append, List.filter_append,
      List.map_append, ← h.values]
    rfl
  · intro e he
    rw [List.length_append, List.length_singleton]
    rcases Store.mem_entries_put he with rfl | he
    · exact Nat.le_refl _
    · exact Nat.le_succ_of_le (h.keys_le e he)
  · intro n w
    rw [Store.get?_put, getElem?_concat_eq_some_iff, ← h.lookup]
    by_cases hn : n = log.length
    · subst hn
      -- nothing has been written under the next key before
      have hnone : s.get? (log.length + 1) ≠ some w := by
        intro hold
        have hlog := (h.lookup log.length w).mp hold
        rw [List.getElem?_eq_none (Nat.le_refl _)] at hlog
        exact nomatch hlog
      simp [hnone]
    · rw [if_neg (by omega)]
      simp [hn]

/-- **One more write.** -/
theorem write {s : Store Nat ν} {log : List (ν × Bool)} (h : Recorded s log) (v : ν) (ok : Bool) :
    Recorded (if ok then s.put (log.length + 1) v else s) (log ++ [(v, ok)]) := by
  cases ok with
  | false => exact h.failed v
  | true => exact h.written v

/-- **The store is emptied**, and nothing of the log stands in it any more. -/
theorem emptied (log : List (ν × Bool)) :
    Recorded (Store.empty : Store Nat ν) (log.map fun w => (w.1, false)) := by
  refine ⟨?_, fun _ he => (nomatch he), ?_⟩
  · have hnone : (log.map fun w => (w.1, false)).filter Prod.snd = [] := by
      rw [List.filter_eq_nil_iff]
      intro w hw
      obtain ⟨v, -, rfl⟩ := List.mem_map.mp hw
      exact Bool.false_ne_true
    rw [hnone]
    rfl
  · intro n v
    constructor
    · intro h
      exact nomatch h
    · intro h
      rw [List.getElem?_map, Option.map_eq_some_iff] at h
      obtain ⟨w, -, hw⟩ := h
      exact nomatch congrArg Prod.snd hw

end Recorded

end DataKit
