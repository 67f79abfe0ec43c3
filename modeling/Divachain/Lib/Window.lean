/-
  Divachain.Lib.Window — entries numbered without gaps, and a window over them.

  `Numbered a l` says that the keys of an association list count up from `a`.
  Such a list is read by position: what stands under the key `a + i` is its
  `i`-th value, and a range of keys is a segment of the values.  `push` is a
  map that keeps the newest entries only: its keys stay numbered, they end at
  the newest, and there are as many as fit.

  Main results:
    * `Numbered.lookup_eq` — a key is looked up by its position;
    * `Numbered.filter_eq` — the entries of a range of keys are a segment;
    * `Sliding.push` — a window stays a window when the next entry comes in.
-/
import Mathlib.Data.List.Range
import Divachain.Lib.OrdMap

namespace DataKit

variable {ν : Type}

/-- The keys count up from `a`. -/
def Numbered (a : Nat) (l : List (Nat × ν)) : Prop := l.map Prod.fst = List.range' a l.length

namespace Numbered

theorem nil (a : Nat) : Numbered a ([] : List (Nat × ν)) := rfl

theorem cons_iff {a : Nat} {e : Nat × ν} {l : List (Nat × ν)} :
    Numbered a (e :: l) ↔ e.1 = a ∧ Numbered (a + 1) l := by
  unfold Numbered
  rw [List.map_cons, List.length_cons, List.range'_succ, List.cons.injEq]

theorem concat {a : Nat} {l : List (Nat × ν)} (h : Numbered a l) (v : ν) :
    Numbered a (l ++ [(a + l.length, v)]) := by
  unfold Numbered at h ⊢
  rw [List.map_append, h, List.length_append, List.length_singleton, List.range'_concat, Nat.one_mul]
  rfl

theorem drop {a : Nat} {l : List (Nat × ν)} (h : Numbered a l) (k : Nat) :
    Numbered (a + k) (l.drop k) := by
  unfold Numbered at h ⊢
  rw [List.map_drop, h, List.length_drop, List.drop_range', Nat.mul_one]

/-- **A key is looked up by its position.** -/
theorem lookup_eq {a : Nat} {l : List (Nat × ν)} (h : Numbered a l) (i : Nat) :
    l.lookup (a + i) = (l.map Prod.snd)[i]? := by
  induction l generalizing a i with
  | nil => simp
  | cons e l ih =>
    obtain ⟨rfl, htail⟩ := cons_iff.mp h
    cases i with
    | zero =>
      rw [List.lookup_cons, Nat.add_zero, beq_self_eq_true]
      rfl
    | succ i =>
      have hne : (e.1 + (i + 1) == e.1) = false := beq_eq_false_iff_ne.mpr (by omega)
      have hkey : e.1 + (i + 1) = e.1 + 1 + i := by omega
      rw [List.lookup_cons, hne, hkey]
      simp [ih htail]

/-- A key is one of the numbers. -/
theorem mem_keys_iff {a : Nat} {l : List (Nat × ν)} (h : Numbered a l) {k : Nat} :
    k ∈ l.map Prod.fst ↔ a ≤ k ∧ k < a + l.length := by
  rw [h, List.mem_range'_1]

/-- **The entries in a range of keys are a segment of the list.** -/
theorem filter_eq {a lo hi : Nat} {l : List (Nat × ν)} (h : Numbered a l) (hlo : a ≤ lo) :
    (l.filter fun e => decide (lo ≤ e.1) && decide (e.1 ≤ hi)).map Prod.snd
      = ((l.map Prod.snd).take (hi + 1 - a)).drop (lo - a) := by
  induction l generalizing a lo with
  | nil => simp
  | cons e l ih =>
    obtain ⟨rfl, htail⟩ := cons_iff.mp h
    by_cases hstart : e.1 = lo
    · subst hstart
      by_cases hend : e.1 ≤ hi
      · -- the segment begins here, and the rest of it with the next key
        have hrest : (l.filter fun x => decide (e.1 ≤ x.1) && decide (x.1 ≤ hi))
            = l.filter fun x => decide (e.1 + 1 ≤ x.1) && decide (x.1 ≤ hi) := by
          refine List.filter_congr ?_
          intro x hx
          have habove := (htail.mem_keys_iff.mp (List.mem_map_of_mem hx)).1
          have hle : e.1 ≤ x.1 := by omega
          rw [decide_eq_true hle, decide_eq_true habove]
        have hnext : hi + 1 - e.1 = hi + 1 - (e.1 + 1) + 1 := by omega
        rw [List.filter_cons_of_pos (by simp [hend]), List.map_cons, hrest,
          ih htail (Nat.le_refl _)]
        simp [hnext]
      · have hnone : (l.filter fun x => decide (e.1 ≤ x.1) && decide (x.1 ≤ hi)) = [] := by
          rw [List.filter_eq_nil_iff]
          intro x hx
          have habove := (htail.mem_keys_iff.mp (List.mem_map_of_mem hx)).1
          have hlt : ¬ x.1 ≤ hi := by omega
          simp [hlt]
        have hzero : hi + 1 - e.1 = 0 := by omega
        rw [List.filter_cons_of_neg (by simp [hend]), hnone, hzero]
        simp
    · -- the segment begins further on
      have hbelow : ¬ lo ≤ e.1 := by omega
      rw [List.filter_cons_of_neg (by simp [hbelow]), ih htail (by omega)]
      have hdrop : lo - e.1 = lo - (e.1 + 1) + 1 := by omega
      by_cases hend : e.1 ≤ hi
      · have htake : hi + 1 - e.1 = hi + 1 - (e.1 + 1) + 1 := by omega
        rw [hdrop, htake]
        simp
      · have hzero : hi + 1 - e.1 = 0 := by omega
        have hzero' : hi + 1 - (e.1 + 1) = 0 := by omega
        rw [hzero, hzero']
        simp

end Numbered

/-! ## A window. -/

/-- The next entry, and away with the one that has become too old. -/
def push (max : Nat) (m : OrdMap Nat ν) (n : Nat) (v : ν) : OrdMap Nat ν :=
  let m := m.set n v
  if max < m.size ∧ max ≤ n then m.delete (n - max) else m

/-- The newest entries up to `top`, as many of them as fit. -/
structure Sliding (max top : Nat) (m : OrdMap Nat ν) : Prop where
  numbered : Numbered (top + 1 - min top max) m.entries
  size_eq : m.size = min top max

namespace Sliding

theorem empty (max : Nat) : Sliding max 0 (OrdMap.empty : OrdMap Nat ν) := by
  refine ⟨Numbered.nil _, ?_⟩
  rw [Nat.zero_min]
  rfl

theorem has_iff {max top : Nat} {m : OrdMap Nat ν} (h : Sliding max top m) {k : Nat} :
    m.has k = true ↔ top + 1 - min top max ≤ k ∧ k ≤ top := by
  have hsize : m.entries.length = min top max := h.size_eq
  rw [OrdMap.has_iff, OrdMap.keys, h.numbered.mem_keys_iff, hsize]
  omega

/-- What one more entry makes of a window: the first one goes if it is full. -/
theorem entries_push {max top : Nat} {m : OrdMap Nat ν} (h : Sliding max top m) (v : ν) :
    (DataKit.push max m (top + 1) v).entries
      = (m.entries ++ [(top + 1, v)]).drop (min top max + 1 - min (top + 1) max) := by
  have hsize : m.entries.length = min top max := h.size_eq
  have hnew : m.has (top + 1) = false := by
    rw [← Bool.not_eq_true, h.has_iff]
    omega
  have hentries := OrdMap.entries_set_of_not_has hnew v
  have hlength : (m.set (top + 1) v).size = min top max + 1 := by
    show (m.set (top + 1) v).entries.length = _
    rw [hentries, List.length_append, List.length_singleton, hsize]
  unfold DataKit.push
  dsimp only
  rw [hlength]
  by_cases hfull : max < min top max + 1 ∧ max ≤ top + 1
  · -- the entry to go has the first of the numbers
    have hone : min top max + 1 - min (top + 1) max = 1 := by omega
    have hfirst : top + 1 - max = top + 1 - min top max := by omega
    rw [if_pos hfull, hone, hfirst]
    show (m.set (top + 1) v).entries.filter _ = _
    rw [hentries]
    have hnumbered := h.numbered.concat v
    have hnext : top + 1 - min top max + m.entries.length = top + 1 := by omega
    rw [hnext] at hnumbered
    generalize m.entries ++ [(top + 1, v)] = l at hnumbered
    cases l with
    | nil => rfl
    | cons e l =>
      obtain ⟨hkey, hrest⟩ := Numbered.cons_iff.mp hnumbered
      rw [List.filter_cons_of_neg (by simp [hkey]), List.drop_one, List.tail_cons,
        List.filter_eq_self]
      intro x hx
      have habove := (hrest.mem_keys_iff.mp (List.mem_map_of_mem hx)).1
      have hne : x.1 ≠ top + 1 - min top max := by omega
      simp [hne]
  · -- there is room left
    have hnone : min top max + 1 - min (top + 1) max = 0 := by omega
    rw [if_neg hfull, hnone, hentries]
    rfl

/-- **A window stays a window.** -/
theorem push {max top : Nat} {m : OrdMap Nat ν} (h : Sliding max top m) (v : ν) :
    Sliding max (top + 1) (DataKit.push max m (top + 1) v) := by
  have hsize : m.entries.length = min top max := h.size_eq
  have hentries := h.entries_push v
  have hlength : (m.entries ++ [(top + 1, v)]).length = min top max + 1 := by
    rw [List.length_append, List.length_singleton, hsize]
  have hnumbered := h.numbered.concat v
  have hnext : top + 1 - min top max + m.entries.length = top + 1 := by omega
  rw [hnext] at hnumbered
  refine ⟨?_, ?_⟩
  · have hstart : top + 1 + 1 - min (top + 1) max
        = top + 1 - min top max + (min top max + 1 - min (top + 1) max) := by omega
    rw [hentries, hstart]
    exact hnumbered.drop _
  · show (DataKit.push max m (top + 1) v).entries.length = _
    rw [hentries, List.length_drop, hlength]
    omega

end Sliding

end DataKit
