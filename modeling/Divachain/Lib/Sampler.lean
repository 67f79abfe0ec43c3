/-
  Divachain.Lib.Sampler — a history that is judged when it is full.

  Values come in one by one.  Once there are `size` of them they are sorted, and
  judged as one sample; the last `keep` stay and the rest is forgotten.  So the
  first sample is taken at the `size`-th value and another one after every
  `size - keep` values, whatever the values are.

  Main results:
    * `length_samples`, `length_history` — how many samples there have been and
      how much is kept, as functions of how much has come in;
    * `judge_of_monotone` — values that come in ascending order are judged in
      contiguous windows of what came in.
-/
import Mathlib.Data.List.Induction
import Mathlib.Data.List.Sort

namespace DataKit

/-- A sample has `size` values; `keep` of them go on to the next one. -/
structure Sampler where
  size : Nat
  keep : Nat
  keep_lt : keep < size

namespace Sampler

variable {α : Type} [LinearOrder α] (s : Sampler)

/-- How many values make the next sample. -/
def stride : Nat := s.size - s.keep

theorem stride_pos : 0 < s.stride := Nat.sub_pos_of_lt s.keep_lt

theorem keep_add_stride : s.keep + s.stride = s.size := Nat.add_sub_cancel' s.keep_lt.le

/-- What is kept of the history after the next value. -/
def push (a : List α) (x : α) : List α :=
  if (a ++ [x]).length < s.size then a ++ [x]
  else
    let sorted := (a ++ [x]).insertionSort (· ≤ ·)
    sorted.drop (sorted.length - s.keep)

/-- The sample that the next value completes. -/
def sample (a : List α) (x : α) : Option (List α) :=
  if (a ++ [x]).length < s.size then none else some ((a ++ [x]).insertionSort (· ≤ ·))

/-- What is kept after all of these values. -/
def history (xs : List α) : List α := xs.foldl s.push []

/-- The samples that these values have completed, in their order. -/
def samples (xs : List α) : List (List α) :=
  (xs.foldl (fun p x => (s.push p.1 x, p.2 ++ (s.sample p.1 x).toList)) (([] : List α), [])).2

/-! ## §1. One value. -/

theorem push_of_lt {a : List α} (h : a.length + 1 < s.size) (x : α) : s.push a x = a ++ [x] := by
  unfold push
  rw [if_pos (by simpa using h)]

theorem sample_of_lt {a : List α} (h : a.length + 1 < s.size) (x : α) : s.sample a x = none := by
  unfold sample
  rw [if_pos (by simpa using h)]

theorem sample_of_eq {a : List α} (h : a.length + 1 = s.size) (x : α) :
    s.sample a x = some ((a ++ [x]).insertionSort (· ≤ ·)) := by
  unfold sample
  rw [if_neg (by simp [h])]

theorem push_of_eq {a : List α} (h : a.length + 1 = s.size) (x : α) :
    s.push a x = ((a ++ [x]).insertionSort (· ≤ ·)).drop s.stride := by
  unfold push
  rw [if_neg (by simp [h])]
  show List.drop _ _ = _
  rw [List.length_insertionSort, List.length_append, List.length_singleton, h]
  rfl

theorem length_push_of_eq {a : List α} (h : a.length + 1 = s.size) (x : α) :
    (s.push a x).length = s.keep := by
  have hkeep := s.keep_add_stride
  rw [push_of_eq s h, List.length_drop, List.length_insertionSort, List.length_append,
    List.length_singleton]
  omega

@[simp] theorem history_nil : s.history ([] : List α) = [] := rfl

@[simp] theorem samples_nil : s.samples ([] : List α) = [] := rfl

theorem history_concat (xs : List α) (x : α) : s.history (xs ++ [x]) = s.push (s.history xs) x := by
  simp [history]

/-- The accumulator of `samples` carries the history along. -/
theorem fst_samples (xs : List α) :
    (xs.foldl (fun p x => (s.push p.1 x, p.2 ++ (s.sample p.1 x).toList)) (([] : List α), [])).1
      = s.history xs := by
  induction xs using List.reverseRecOn with
  | nil => rfl
  | append_singleton xs x ih =>
    rw [List.foldl_concat, history_concat, ← ih]

theorem samples_concat (xs : List α) (x : α) :
    s.samples (xs ++ [x]) = s.samples xs ++ (s.sample (s.history xs) x).toList := by
  unfold samples
  rw [List.foldl_concat, fst_samples]

/-! ## §2. How much is kept, and how often it is judged. -/

/-- **The bookkeeping**: every sample has used up one stride of what came in. -/
theorem length_history_add (xs : List α) :
    (s.history xs).length + s.stride * (s.samples xs).length = xs.length
      ∧ (s.history xs).length < s.size
      ∧ ((s.samples xs).length ≠ 0 → s.keep ≤ (s.history xs).length) := by
  induction xs using List.reverseRecOn with
  | nil => exact ⟨by simp, Nat.lt_of_le_of_lt (Nat.zero_le _) s.keep_lt, fun h => absurd rfl h⟩
  | append_singleton xs x ih =>
    obtain ⟨hsum, hlt, hkeep⟩ := ih
    rw [history_concat, samples_concat]
    rcases Nat.lt_or_eq_of_le (Nat.succ_le_of_lt hlt) with hmore | hfull
    · -- no sample yet
      rw [push_of_lt s hmore, sample_of_lt s hmore, Option.toList_none, List.append_nil,
        List.length_append, List.length_append, List.length_singleton]
      exact ⟨by omega, hmore, fun h => Nat.le_succ_of_le (hkeep h)⟩
    · rw [length_push_of_eq s hfull, sample_of_eq s hfull, Option.toList_some, List.length_append,
        List.length_append, List.length_singleton, List.length_singleton, Nat.mul_succ]
      have hparts := s.keep_add_stride
      exact ⟨by omega, s.keep_lt, fun _ => le_rfl⟩

/-- **The number of samples**: the first one at the `size`-th value, and one more
after each stride. -/
theorem length_samples (xs : List α) :
    (s.samples xs).length = (xs.length - s.keep) / s.stride := by
  obtain ⟨hsum, hlt, hkeep⟩ := s.length_history_add xs
  have hparts := s.keep_add_stride
  have hpos := s.stride_pos
  symm
  rcases Nat.eq_zero_or_pos (s.samples xs).length with hnone | hsome
  · rw [hnone, Nat.mul_zero, Nat.add_zero] at hsum
    rw [hnone]
    exact Nat.div_eq_of_lt (by omega)
  · have hle := hkeep hsome.ne'
    have hrest : xs.length - s.keep
        = (s.history xs).length - s.keep + s.stride * (s.samples xs).length := by omega
    rw [hrest, Nat.add_mul_div_left _ _ s.stride_pos, Nat.div_eq_of_lt (by omega), Nat.zero_add]

theorem length_history (xs : List α) :
    (s.history xs).length = xs.length - s.stride * ((xs.length - s.keep) / s.stride) := by
  obtain ⟨hsum, -, -⟩ := s.length_history_add xs
  rw [← s.length_samples xs]
  omega

/-! ## §3. Values in ascending order. -/

/-- Nothing is reordered: what is kept are the last values that came in. -/
theorem history_of_monotone {xs : List α} (h : xs.Pairwise (· ≤ ·)) :
    s.history xs = xs.drop (s.stride * (s.samples xs).length) := by
  induction xs using List.reverseRecOn with
  | nil => simp
  | append_singleton xs x ih =>
    have hxs : xs.Pairwise (· ≤ ·) := (List.pairwise_append.mp h).1
    obtain ⟨hsum, hlt, -⟩ := s.length_history_add xs
    have hkept : s.history xs ++ [x] = (xs ++ [x]).drop (s.stride * (s.samples xs).length) := by
      rw [ih hxs, List.drop_append_of_le_length (by omega)]
    rw [history_concat, samples_concat]
    rcases Nat.lt_or_eq_of_le (Nat.succ_le_of_lt hlt) with hmore | hfull
    · rw [push_of_lt s hmore, sample_of_lt s hmore, Option.toList_none, List.append_nil, hkept]
    · have hsorted : (s.history xs ++ [x]).insertionSort (· ≤ ·) = s.history xs ++ [x] := by
        apply List.Pairwise.insertionSort_eq
        rw [hkept]
        exact h.drop
      rw [push_of_eq s hfull, sample_of_eq s hfull, Option.toList_some, hsorted, hkept,
        List.drop_drop, List.length_append, List.length_singleton, Nat.mul_succ]

/-- **The windows**: of ascending values the `j`-th sample is those from the
`j`-th stride on. -/
theorem samples_of_monotone {xs : List α} (h : xs.Pairwise (· ≤ ·)) :
    s.samples xs
      = (List.range (s.samples xs).length).map fun j => (xs.drop (s.stride * j)).take s.size := by
  induction xs using List.reverseRecOn with
  | nil => rfl
  | append_singleton xs x ih =>
    have hxs : xs.Pairwise (· ≤ ·) := (List.pairwise_append.mp h).1
    obtain ⟨hsum, hlt, hkeep⟩ := s.length_history_add xs
    -- the earlier windows lie in `xs` and do not see the new value
    have hold : ∀ j ∈ List.range (s.samples xs).length,
        (xs.drop (s.stride * j)).take s.size = ((xs ++ [x]).drop (s.stride * j)).take s.size := by
      intro j hj
      have hlen : s.stride * j + s.stride ≤ s.stride * (s.samples xs).length := by
        rw [← Nat.mul_succ]
        exact Nat.mul_le_mul_left _ (Nat.succ_le_of_lt (List.mem_range.mp hj))
      have hparts := s.keep_add_stride
      have hk : s.keep ≤ (s.history xs).length :=
        hkeep (Nat.ne_of_gt (Nat.lt_of_le_of_lt (Nat.zero_le j) (List.mem_range.mp hj)))
      rw [List.drop_append_of_le_length (by omega), List.take_append_of_le_length]
      rw [List.length_drop]
      omega
    rw [samples_concat]
    rcases Nat.lt_or_eq_of_le (Nat.succ_le_of_lt hlt) with hmore | hfull
    · rw [sample_of_lt s hmore, Option.toList_none, List.append_nil]
      conv_lhs => rw [ih hxs]
      exact List.map_congr_left hold
    · have hkept : s.history xs ++ [x] = (xs ++ [x]).drop (s.stride * (s.samples xs).length) := by
        rw [s.history_of_monotone hxs, List.drop_append_of_le_length (by omega)]
      have hsorted : (s.history xs ++ [x]).insertionSort (· ≤ ·) = s.history xs ++ [x] := by
        apply List.Pairwise.insertionSort_eq
        rw [hkept]
        exact h.drop
      have hall : ((xs ++ [x]).drop (s.stride * (s.samples xs).length)).take s.size
          = (xs ++ [x]).drop (s.stride * (s.samples xs).length) := by
        apply List.take_of_length_le
        rw [← hkept, List.length_append, List.length_singleton]
        exact hfull.le
      rw [sample_of_eq s hfull, Option.toList_some, List.length_append, List.length_singleton,
        List.range_succ, List.map_append, List.map_singleton, hall, ← hkept, hsorted]
      congr 1
      conv_lhs => rw [ih hxs]
      exact List.map_congr_left hold

/-- **A condition on all windows of what came in is one on all samples.** -/
theorem judge_of_monotone {xs : List α} (h : xs.Pairwise (· ≤ ·)) {P : List α → Prop}
    (hwindow : ∀ j, j + s.size ≤ xs.length → P ((xs.drop j).take s.size)) :
    ∀ a ∈ s.samples xs, P a := by
  intro a ha
  rw [samples_of_monotone s h, List.mem_map] at ha
  obtain ⟨j, hj, rfl⟩ := ha
  obtain ⟨hsum, -, hkeep⟩ := s.length_history_add xs
  have hlt := List.mem_range.mp hj
  have hlen : s.stride * j + s.stride ≤ s.stride * (s.samples xs).length := by
    rw [← Nat.mul_succ]
    exact Nat.mul_le_mul_left _ (Nat.succ_le_of_lt hlt)
  have hparts := s.keep_add_stride
  have hk := hkeep (Nat.ne_of_gt (Nat.lt_of_le_of_lt (Nat.zero_le j) hlt))
  exact hwindow _ (by omega)

end Sampler

end DataKit
